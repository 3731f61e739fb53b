import DwBpf.Foundation.SearchTree
import Mathlib.Algebra.Group.Nat.Defs
import Mathlib.Data.Nat.Log

/-! # Red-black trees

A tree is balanced when no red node has a red child and every way down meets the same
number of black nodes (`DwBpf.Tree.RedBlack`). Linking a value keeps that
(`DwBpf.Tree.balanced_link`), and so does erasing one (`DwBpf.Tree.balanced_eraseAt`),
which takes the value out of the in-order sequence and moves nothing
(`DwBpf.Tree.toList_eraseAt`). A way down a balanced tree is at most twice as long as
the logarithm of the number of its values (`DwBpf.Tree.Balanced.depth_le`).
-/

namespace DwBpf

/-- The other side. -/
def Side.flip : Side → Side
  | .left => .right
  | .right => .left

namespace Tree

variable {α : Type*}

/-- The tree has a root of the colour and `height` black nodes on every way down. -/
inductive RedBlack : Tree α → Color → Nat → Prop
  | nil : RedBlack nil .black 0
  | red {left right : Tree α} {value : α} {height : Nat} (below : RedBlack left .black height)
      (beside : RedBlack right .black height) : RedBlack (node .red left value right) .red height
  | black {left right : Tree α} {value : α} {color color' : Color} {height : Nat}
      (below : RedBlack left color height) (beside : RedBlack right color' height) :
      RedBlack (node .black left value right) .black (height + 1)

/-- A balanced tree with a black root. -/
def Balanced (tree : Tree α) : Prop := ∃ height, tree.RedBlack .black height

/-- What is above a place where a tree with a root of the colour and with `height` black
nodes on every way down may hang. -/
inductive Fits : List (Frame α) → Color → Nat → Prop
  | root {height : Nat} : Fits [] .black height
  | black {path : List (Frame α)} {side : Side} {value : α} {sibling : Tree α}
      {color color' : Color} {height : Nat} (beside : RedBlack sibling color' height)
      (above : Fits path .black (height + 1)) :
      Fits (⟨side, .black, value, sibling⟩ :: path) color height
  | red {path : List (Frame α)} {side : Side} {value : α} {sibling : Tree α} {height : Nat}
      (beside : RedBlack sibling .black height) (above : Fits path .red height) :
      Fits (⟨side, .red, value, sibling⟩ :: path) .black height

variable {tree left right : Tree α} {value : α} {path : List (Frame α)} {color : Color}
  {height : Nat}

/-- A place for a red root is one for a black root. -/
theorem Fits.weaken (fits : Fits path color height) : Fits path .black height := by
  cases fits with
  | root => exact .root
  | black beside above => exact .black beside above
  | red beside above => exact .red beside above

theorem RedBlack.blacken_eq (balanced : tree.RedBlack .black height) : tree.blacken = tree := by
  cases balanced with
  | nil => rfl
  | black => rfl

theorem redBlack_attach_black {frame : Frame α} {other : Color} (isBlack : frame.color = .black)
    (balanced : tree.RedBlack color height) (beside : frame.sibling.RedBlack other height) :
    (attach frame tree).RedBlack .black (height + 1) := by
  obtain ⟨side, _, value, sibling⟩ := frame
  cases isBlack
  cases side with
  | left => exact .black balanced beside
  | right => exact .black beside balanced

theorem redBlack_attach_red {frame : Frame α} (isRed : frame.color = .red)
    (balanced : tree.RedBlack .black height) (beside : frame.sibling.RedBlack .black height) :
    (attach frame tree).RedBlack .red height := by
  obtain ⟨side, _, value, sibling⟩ := frame
  cases isRed
  cases side with
  | left => exact .red balanced beside
  | right => exact .red beside balanced

/-- A balanced tree at a place for it makes a balanced tree. -/
theorem balanced_plug (balanced : tree.RedBlack color height) (fits : Fits path color height) :
    (plug path tree).Balanced := by
  induction fits generalizing tree with
  | root => exact ⟨_, balanced⟩
  | black beside above ih => exact ih (redBlack_attach_black rfl balanced beside)
  | red beside above ih => exact ih (redBlack_attach_red rfl balanced beside)

/-- Every subtree of a balanced tree is balanced and hangs at a place for it. -/
theorem fits_of_plug (balanced : (plug path tree).Balanced) :
    ∃ color height, tree.RedBlack color height ∧ Fits path color height := by
  induction path generalizing tree with
  | nil =>
      obtain ⟨height, balanced⟩ := balanced
      exact ⟨.black, height, balanced, .root⟩
  | cons frame path ih =>
      obtain ⟨color, height, attached, fits⟩ := ih balanced
      obtain ⟨side, _, value, sibling⟩ := frame
      cases side with
      | left =>
          cases attached with
          | red below beside => exact ⟨.black, _, below, .red beside fits⟩
          | black below beside => exact ⟨_, _, below, .black beside fits⟩
      | right =>
          cases attached with
          | red below beside => exact ⟨.black, _, beside, .red below fits⟩
          | black below beside => exact ⟨_, _, beside, .black below fits⟩

theorem RedBlack.of_not_red (balanced : tree.RedBlack color height)
    (notRed : ∀ left value right, tree = node .red left value right → False) :
    tree.RedBlack .black height := by
  cases balanced with
  | nil => exact .nil
  | red => exact absurd rfl (notRed _ _ _)
  | black below beside => exact .black below beside

/-- A descent that falls off leaves the way back to the root. -/
theorem plug_of_locate {steer : α → Ordering} {leaf : List (Frame α)}
    (fell : tree.locate steer path = .inr leaf) : plug leaf nil = plug path tree := by
  induction tree generalizing path with
  | nil =>
      cases fell
      rfl
  | node color left here right ihLeft ihRight =>
      rw [locate] at fell
      split at fell
      · exact ihLeft fell
      · exact ihRight fell
      · cases fell

/-- Above a red parent there is a black one. -/
theorem Fits.gparent {parent gparent : Frame α}
    (fits : Fits (parent :: gparent :: path) color height)
    (isRed : parent.color = .red) :
    gparent.color = .black ∧ parent.sibling.RedBlack .black height ∧
      (∃ other, gparent.sibling.RedBlack other height) ∧ Fits path .black (height + 1) := by
  cases fits with
  | black => cases isRed
  | red beside above =>
      cases above with
      | black beside' above' => exact ⟨rfl, beside, ⟨_, beside'⟩, above'⟩

/-- Rebalancing behind a new red node: where its parent is red, the parent's parent is
black, and either the colours move up or a rotation ends the walk. -/
theorem balanced_insertColor (below : left.RedBlack .black height)
    (beside : right.RedBlack .black height) (fits : Fits path .black height) :
    (insertColor left value right path).Balanced := by
  fun_induction insertColor left value right path generalizing height with
  | case1 => exact ⟨_, .black below beside⟩
  | case2 left value right parent rest isBlack =>
      obtain ⟨side, _, value, sibling⟩ := parent
      cases isBlack
      cases fits with
      | black beside' above => exact balanced_plug (.red below beside) (.black beside' above)
  | case3 left value right parent isRed =>
      obtain ⟨side, _, value, sibling⟩ := parent
      cases isRed
      cases fits with
      | red _ above => cases above
  | case4 left value right parent isRed gparent rest uncleLeft uncle uncleRight isUncle side ih =>
      obtain ⟨-, sibling, ⟨_, isRedUncle⟩, above⟩ := fits.gparent isRed
      rw [isUncle] at isRedUncle
      cases isRedUncle with
      | red uncleBelow uncleBeside =>
          refine ih ?_ (.black uncleBelow uncleBeside) above
          exact redBlack_attach_black rfl (.red below beside) sibling
  | case5 left value right parent isRed gparent rest uncleLeft uncle uncleRight isUncle side ih =>
      obtain ⟨-, sibling, ⟨_, isRedUncle⟩, above⟩ := fits.gparent isRed
      rw [isUncle] at isRedUncle
      cases isRedUncle with
      | red uncleBelow uncleBeside =>
          refine ih (.black uncleBelow uncleBeside) ?_ above
          exact redBlack_attach_black rfl (.red below beside) sibling
  | case6 left value right parent isRed gparent rest _ _ notRed =>
      obtain ⟨isBlack, sibling, ⟨_, uncle⟩, above⟩ := fits.gparent isRed
      rw [isBlack, below.blacken_eq, beside.blacken_eq]
      exact balanced_plug
        (.black (.red sibling below) (.red beside (uncle.of_not_red notRed))) above
  | case7 left value right parent isRed gparent rest _ _ notRed =>
      obtain ⟨isBlack, sibling, ⟨_, uncle⟩, above⟩ := fits.gparent isRed
      rw [isBlack, sibling.blacken_eq]
      exact balanced_plug
        (.black (.red below beside) (.red sibling (uncle.of_not_red notRed))) above
  | case8 left value right parent isRed gparent rest _ _ notRed =>
      obtain ⟨isBlack, sibling, ⟨_, uncle⟩, above⟩ := fits.gparent isRed
      rw [isBlack, below.blacken_eq, beside.blacken_eq]
      exact balanced_plug
        (.black (.red (uncle.of_not_red notRed) below) (.red beside sibling)) above
  | case9 left value right parent isRed gparent rest _ _ notRed =>
      obtain ⟨isBlack, sibling, ⟨_, uncle⟩, above⟩ := fits.gparent isRed
      rw [isBlack, sibling.blacken_eq]
      exact balanced_plug
        (.black (.red (uncle.of_not_red notRed) sibling) (.red below beside)) above

/-- A path on which a descent falls off ends at a place for an empty tree. -/
theorem fits_of_locate {steer : α → Ordering} {leaf : List (Frame α)} (balanced : tree.Balanced)
    (fell : tree.locate steer [] = .inr leaf) : Fits leaf .black 0 := by
  have plugged : (plug leaf nil).Balanced := by
    rw [plug_of_locate fell]
    exact balanced
  obtain ⟨color, height, isNil, fits⟩ := fits_of_plug plugged
  cases isNil
  exact fits

theorem balanced_link {steer : α → Ordering} {leaf : List (Frame α)} (balanced : tree.Balanced)
    (fell : tree.locate steer [] = .inr leaf) (value : α) : (link leaf value).Balanced :=
  balanced_insertColor .nil .nil (fits_of_locate balanced fell)

/-- The child on the side. -/
def child (left right : Tree α) : Side → Tree α
  | .left => left
  | .right => right

/-- The rotations that end a rebalancing: below a node of the colour, `focus` lacks a black
node, and its sibling, with the child `near` to it and the child `far` from it, has a red
child. -/
def eraseRotate (side : Side) (color : Color) (focus : Tree α) (value : α) (near : Tree α)
    (sibling : α) (far : Tree α) : Option (Tree α) :=
  match far with
  | node .red farLeft farValue farRight => some (attach
      ⟨side, color, sibling, node .black farLeft farValue farRight⟩
      (attach ⟨side, .black, value, near⟩ focus))
  | _ =>
      match near with
      | node .red nearLeft nearValue nearRight => some (attach
          ⟨side, color, nearValue,
            attach ⟨side, .black, sibling, far⟩ (child nearLeft nearRight side.flip).blacken⟩
          (attach ⟨side, .black, value, child nearLeft nearRight side⟩ focus))
      | _ => none

/-- Rebalance upwards from a tree that lacks a black node: a red sibling is rotated away
first, a red child of the sibling ends the walk, and otherwise the sibling becomes red,
and the walk goes on at a black parent. In a balanced tree there is a sibling. -/
def eraseColor (focus : Tree α) : List (Frame α) → Tree α
  | [] => focus
  | parent :: rest =>
      match parent.sibling with
      | nil => plug (parent :: rest) focus
      | node .red left sibling right =>
          match child left right parent.side with
          | nil => plug (parent :: rest) focus
          | node _ nearLeft near nearRight =>
              plug (⟨parent.side, parent.color, sibling, child left right parent.side.flip⟩ :: rest)
                ((eraseRotate parent.side .red focus parent.value
                    (child nearLeft nearRight parent.side) near
                    (child nearLeft nearRight parent.side.flip)).getD
                  (attach ⟨parent.side, .black, parent.value, node .red nearLeft near nearRight⟩
                    focus))
      | node .black left sibling right =>
          match eraseRotate parent.side parent.color focus parent.value
              (child left right parent.side) sibling (child left right parent.side.flip) with
          | some rotated => plug rest rotated
          | none =>
              match parent.color with
              | .red => plug rest
                  (attach ⟨parent.side, .black, parent.value, node .red left sibling right⟩ focus)
              | .black => eraseColor
                  (attach ⟨parent.side, .black, parent.value, node .red left sibling right⟩ focus)
                  rest

/-- The first node of a tree: its colour, value and right child, and the way back. -/
def leftmost (color : Color) (value : α) (right : Tree α) :
    Tree α → List (Frame α) → Color × α × Tree α × List (Frame α)
  | nil, path => (color, value, right, path)
  | node color' left value' right', path =>
      leftmost color' value' right' left (⟨.left, color, value, right⟩ :: path)

/-- Erase a node with the colour and the children: a node with one child is replaced by the
child, and one with two children by the node behind it. -/
def eraseAt (color : Color) (left right : Tree α) (path : List (Frame α)) : Tree α :=
  match left, right with
  | nil, nil =>
      match color with
      | .red => plug path nil
      | .black => eraseColor nil path
  | nil, node _ left value right => plug path (node color left value right)
  | node _ left value right, nil => plug path (node color left value right)
  | left, node rightColor rightLeft rightValue rightRight =>
      let (next, value, below, inner) := leftmost rightColor rightValue rightRight rightLeft []
      let path := inner ++ ⟨.right, color, value, left⟩ :: path
      match below with
      | node _ left value right => plug path (node .black left value right)
      | nil =>
          match next with
          | .red => plug path nil
          | .black => eraseColor nil path

section Sequence

variable {focus near far rotated : Tree α} {sibling : α} {side : Side}

theorem toList_child (left right : Tree α) (side : Side) (color : Color) (value : α) :
    (attach ⟨side, color, value, child left right side.flip⟩ (child left right side)).toList =
      left.toList ++ value :: right.toList := by
  cases side with
  | left => rfl
  | right => rfl

theorem toList_eraseRotate
    (rotates : eraseRotate side color focus value near sibling far = some rotated) :
    rotated.toList =
      (attach ⟨side, color, value, attach ⟨side, .black, sibling, far⟩ near⟩ focus).toList := by
  unfold eraseRotate at rotates
  split at rotates
  · cases rotates
    cases side <;> simp [attach]
  · split at rotates
    · cases rotates
      cases side <;> simp [attach, child, Side.flip]
    · cases rotates

theorem toList_plug_congr {other : Tree α} (path : List (Frame α))
    (same : tree.toList = other.toList) : (plug path tree).toList = (plug path other).toList := by
  rw [toList_plug, toList_plug, same]

/-- Colours do not matter to the sequence. -/
theorem toList_attach_congr {other : Tree α} {frame frame' : Frame α}
    (side : frame.side = frame'.side)
    (value : frame.value = frame'.value)
    (sibling : frame.sibling.toList = frame'.sibling.toList) (same : tree.toList = other.toList) :
    (attach frame tree).toList = (attach frame' other).toList := by
  rw [toList_attach, toList_attach, side, value, sibling, same]

theorem toList_eraseColor (focus : Tree α) (path : List (Frame α)) :
    (eraseColor focus path).toList = (plug path focus).toList := by
  fun_induction eraseColor focus path with
  | case1 | case2 | case3 => rfl
  | case4 focus parent rest left sibling right isSibling _ nearLeft near nearRight isNear =>
      have rotated : ((eraseRotate parent.side .red focus parent.value
          (child nearLeft nearRight parent.side) near
          (child nearLeft nearRight parent.side.flip)).getD
            (attach ⟨parent.side, .black, parent.value, node .red nearLeft near nearRight⟩
              focus)).toList =
          (attach ⟨parent.side, .black, parent.value, child left right parent.side⟩
            focus).toList := by
        rw [isNear]
        cases rotates : eraseRotate parent.side .red focus parent.value
            (child nearLeft nearRight parent.side) near
            (child nearLeft nearRight parent.side.flip) with
        | none => exact toList_attach_congr rfl rfl rfl rfl
        | some rotated =>
            exact (toList_eraseRotate rotates).trans
              (toList_attach_congr rfl rfl (toList_child ..) rfl)
      refine toList_plug_congr rest ?_
      obtain ⟨side, color, value, _⟩ := parent
      cases isSibling
      rw [toList_attach_congr rfl rfl rfl rotated]
      cases side <;> simp [attach, child, Side.flip]
  | case5 focus parent rest left sibling right isSibling rotated rotates =>
      refine toList_plug_congr rest ((toList_eraseRotate rotates).trans ?_)
      refine toList_attach_congr rfl rfl ?_ rfl
      rw [isSibling]
      exact toList_child ..
  | case6 focus parent rest left sibling right isSibling _ isRed =>
      refine toList_plug_congr rest (toList_attach_congr rfl rfl ?_ rfl)
      rw [isSibling]
      rfl
  | case7 focus parent rest left sibling right isSibling _ isBlack ih =>
      rw [ih]
      refine toList_plug_congr rest (toList_attach_congr rfl rfl ?_ rfl)
      rw [isSibling]
      rfl

theorem before_append (inner path : List (Frame α)) :
    before (inner ++ path) = before path ++ before inner := by
  induction inner with
  | nil => rw [List.nil_append, before, List.append_nil]
  | cons frame inner ih =>
      rw [List.cons_append, before, before]
      split
      · exact ih
      · rw [ih, List.append_assoc]

theorem after_append (inner path : List (Frame α)) :
    after (inner ++ path) = after inner ++ after path := by
  induction inner with
  | nil => rfl
  | cons frame inner ih =>
      rw [List.cons_append, after, after]
      split
      · rw [ih, List.append_assoc]
      · exact ih

/-- The way to the first node goes left only. -/
theorem toList_leftmost {right left below : Tree α} {path inner : List (Frame α)} {first : Color}
    {found : α} (leads : leftmost color value right left path = (first, found, below, inner)) :
    before inner = before path ∧ found :: below.toList ++ after inner =
      left.toList ++ value :: right.toList ++ after path := by
  fun_induction leftmost color value right left path with
  | case1 =>
      cases leads
      exact ⟨rfl, rfl⟩
  | case2 color value right path color' left value' right' ih =>
      obtain ⟨front, back⟩ := ih leads
      refine ⟨front, ?_⟩
      rw [back]
      simp [after]

/-- The node behind an erased one takes its place. -/
theorem toList_successor {right left below : Tree α} {inner : List (Frame α)} {first : Color}
    {found : α} {rightColor : Color} {rightLeft : Tree α}
    (leads : leftmost rightColor value right rightLeft [] = (first, found, below, inner))
    (color : Color) (path : List (Frame α)) :
    (plug (inner ++ ⟨.right, color, found, left⟩ :: path) below).toList =
      before path ++ (left.toList ++ (node rightColor rightLeft value right).toList) ++
        after path := by
  obtain ⟨front, back⟩ := toList_leftmost leads
  simp only [before, after, List.append_nil] at front back
  rw [toList_plug, before_append, after_append, front, toList_node, ← back]
  simp [before, after]

/-- Erasing takes one value out of the sequence. -/
theorem toList_eraseAt (color : Color) (left right : Tree α) (path : List (Frame α)) :
    (eraseAt color left right path).toList =
      before path ++ (left.toList ++ right.toList) ++ after path := by
  fun_cases eraseAt color left right path with
  | case1 => exact toList_plug ..
  | case2 => exact (toList_eraseColor ..).trans (toList_plug ..)
  | case3 => exact toList_plug ..
  | case4 => simp [toList_plug]
  | case5 =>
      rename_i leads _ _
      rw [← toList_successor leads color path]
      exact toList_plug_congr _ rfl
  | case6 => exact toList_successor ‹_› color path
  | case7 => exact (toList_eraseColor ..).trans (toList_successor ‹_› color path)

end Sequence

section Balance

variable {focus near far rotated : Tree α} {sibling : α} {side : Side} {other : Color}

theorem redBlack_child (below : left.RedBlack color height) (beside : right.RedBlack color height)
    (side : Side) : (child left right side).RedBlack color height := by
  cases side with
  | left => exact below
  | right => exact beside

theorem exists_redBlack_child (below : left.RedBlack color height)
    (beside : right.RedBlack other height) (side : Side) :
    ∃ color, (child left right side).RedBlack color height := by
  cases side with
  | left => exact ⟨_, below⟩
  | right => exact ⟨_, beside⟩

/-- The height of a tree under a node of the colour. -/
def Color.above (color : Color) (height : Nat) : Nat :=
  match color with
  | .red => height
  | .black => height + 1

theorem redBlack_attach {frame : Frame α} (balanced : tree.RedBlack .black height)
    (beside : frame.sibling.RedBlack .black height) :
    (attach frame tree).RedBlack frame.color (Color.above frame.color height) := by
  cases isColor : frame.color with
  | red => exact redBlack_attach_red isColor balanced beside
  | black => exact redBlack_attach_black isColor balanced beside

/-- The rotations restore the black node that was missing. -/
theorem redBlack_eraseRotate (lacks : focus.RedBlack .black height)
    (isNear : near.RedBlack color height) (isFar : far.RedBlack other height) {upper : Color}
    (rotates : eraseRotate side upper focus value near sibling far = some rotated) :
    rotated.RedBlack upper (Color.above upper (height + 1)) := by
  unfold eraseRotate at rotates
  split at rotates
  · cases rotates
    cases isFar with
    | red farBelow farBeside =>
        exact redBlack_attach (redBlack_attach_black rfl lacks isNear) (.black farBelow farBeside)
  · rename_i notRed
    have far := isFar.of_not_red notRed
    split at rotates
    · cases rotates
      cases isNear with
      | red nearBelow nearBeside =>
          have outer := redBlack_child nearBelow nearBeside side.flip
          rw [outer.blacken_eq]
          have inner := redBlack_child nearBelow nearBeside side
          exact redBlack_attach (redBlack_attach_black rfl lacks inner)
            (redBlack_attach_black rfl outer far)
    · cases rotates

/-- A sibling without a red child can become red. -/
theorem redBlack_of_eraseRotate (isNear : (child left right side).RedBlack color height)
    (isFar : (child left right side.flip).RedBlack other height) {upper : Color}
    (stays : eraseRotate side upper focus value (child left right side) sibling
      (child left right side.flip) = none) :
    (node .red left sibling right).RedBlack .red height := by
  unfold eraseRotate at stays
  split at stays
  · cases stays
  · rename_i farNotRed
    split at stays
    · cases stays
    · rename_i nearNotRed
      have near := isNear.of_not_red nearNotRed
      have far := isFar.of_not_red farNotRed
      cases side with
      | left => exact .red near far
      | right => exact .red far near

theorem Fits.parent {parent : Frame α} (fits : Fits (parent :: path) color height) :
    ∃ other, parent.sibling.RedBlack other height ∧ (parent.color = .red → other = .black) ∧
      Fits path parent.color (Color.above parent.color height) := by
  cases fits with
  | black beside above =>
      refine ⟨_, beside, ?_, above⟩
      intro isRed
      cases isRed
  | red beside above => exact ⟨_, beside, fun _ => rfl, above⟩

/-- Rebalancing upwards: the tree in the focus lacks a black node, and what is above would
take a tree with one more. -/
theorem balanced_eraseColor (lacks : focus.RedBlack .black height)
    (fits : Fits path .black (height + 1)) : (eraseColor focus path).Balanced := by
  fun_induction eraseColor focus path generalizing height with
  | case1 => exact ⟨_, lacks⟩
  | case2 focus parent rest isNil =>
      obtain ⟨_, beside, -, -⟩ := fits.parent
      rw [isNil] at beside
      cases beside
  | case3 focus parent rest left sibling right isSibling isNil =>
      obtain ⟨_, beside, -, -⟩ := fits.parent
      rw [isSibling] at beside
      cases beside with
      | red below beside =>
          have near := redBlack_child below beside parent.side
          rw [isNil] at near
          cases near
  | case4 focus parent rest left sibling right isSibling _ nearLeft near nearRight isNear =>
      obtain ⟨_, beside, onlyBlack, above⟩ := fits.parent
      rw [isSibling] at beside
      cases beside with
      | red below beside =>
          have isBlack : parent.color = .black := by
            cases isColor : parent.color with
            | red => cases onlyBlack isColor
            | black => rfl
          rw [isBlack] at above ⊢
          have far := redBlack_child below beside parent.side.flip
          have nearBlack := redBlack_child below beside parent.side
          rw [isNear] at nearBlack
          -- the parent is red now, and its new sibling is black
          cases nearBlack with
          | black nearBelow nearBeside =>
              obtain ⟨_, inner⟩ := exists_redBlack_child nearBelow nearBeside parent.side
              obtain ⟨_, outer⟩ := exists_redBlack_child nearBelow nearBeside parent.side.flip
              cases rotates : eraseRotate parent.side .red focus parent.value
                  (child nearLeft nearRight parent.side) near
                  (child nearLeft nearRight parent.side.flip) with
              | none =>
                  have isRed := redBlack_of_eraseRotate inner outer rotates
                  exact balanced_plug (redBlack_attach_black rfl lacks isRed) (.black far above)
              | some rotated =>
                  exact balanced_plug (redBlack_eraseRotate lacks inner outer rotates)
                    (.black far above)
  | case5 focus parent rest left sibling right isSibling rotated rotates =>
      obtain ⟨_, beside, -, above⟩ := fits.parent
      rw [isSibling] at beside
      cases beside with
      | black below beside =>
          obtain ⟨_, near⟩ := exists_redBlack_child below beside parent.side
          obtain ⟨_, far⟩ := exists_redBlack_child below beside parent.side.flip
          exact balanced_plug (redBlack_eraseRotate lacks near far rotates) above
  | case6 focus parent rest left sibling right isSibling stays isRed =>
      obtain ⟨_, beside, -, above⟩ := fits.parent
      rw [isSibling] at beside
      cases beside with
      | black below beside =>
          obtain ⟨_, near⟩ := exists_redBlack_child below beside parent.side
          obtain ⟨_, far⟩ := exists_redBlack_child below beside parent.side.flip
          rw [isRed] at above
          exact balanced_plug
            (redBlack_attach_black rfl lacks (redBlack_of_eraseRotate near far stays)) above.weaken
  | case7 focus parent rest left sibling right isSibling stays isBlack ih =>
      obtain ⟨_, beside, -, above⟩ := fits.parent
      rw [isSibling] at beside
      cases beside with
      | black below beside =>
          obtain ⟨_, near⟩ := exists_redBlack_child below beside parent.side
          obtain ⟨_, far⟩ := exists_redBlack_child below beside parent.side.flip
          rw [isBlack] at above
          exact ih (redBlack_attach_black rfl lacks (redBlack_of_eraseRotate near far stays)) above

/-- What is above a place does not depend on the values there. -/
theorem Fits.congr_value {inner : List (Frame α)} {found : α}
    (fits : Fits (inner ++ ⟨side, color, value, tree⟩ :: path) other height) :
    Fits (inner ++ ⟨side, color, found, tree⟩ :: path) other height := by
  induction inner generalizing other height with
  | nil =>
      cases fits with
      | black beside above => exact .black beside above
      | red beside above => exact .red beside above
  | cons frame inner ih =>
      cases fits with
      | black beside above => exact .black beside (ih above)
      | red beside above => exact .red beside (ih above)

theorem plug_append (inner path : List (Frame α)) (tree : Tree α) :
    plug (inner ++ path) tree = plug path (plug inner tree) := by
  induction inner generalizing tree with
  | nil => rfl
  | cons frame inner ih => exact ih _

theorem plug_leftmost {below : Tree α} {inner : List (Frame α)} {first : Color} {found : α}
    (leads : leftmost color value right left path = (first, found, below, inner)) :
    plug inner (node first nil found below) = plug path (node color left value right) := by
  fun_induction leftmost color value right left path with
  | case1 =>
      cases leads
      rfl
  | case2 color value right path color' left value' right' ih => exact ih leads

/-- The place of the node behind an erased one. -/
theorem fits_successor {below : Tree α} {inner : List (Frame α)} {first : Color} {found : α}
    {rightColor : Color} {rightLeft rightRight : Tree α} {rightValue : α}
    (balanced : (plug path (node color left value
      (node rightColor rightLeft rightValue rightRight))).Balanced)
    (leads : leftmost rightColor rightValue rightRight rightLeft [] =
      (first, found, below, inner)) :
    ∃ other height, (node first nil found below).RedBlack other height ∧
      Fits (inner ++ ⟨.right, color, found, left⟩ :: path) other height := by
  have plugged : (plug (inner ++ ⟨.right, color, value, left⟩ :: path)
      (node first nil found below)).Balanced := by
    rw [plug_append, plug_leftmost leads]
    exact balanced
  obtain ⟨other, height, isNode, fits⟩ := fits_of_plug plugged
  exact ⟨other, height, isNode, fits.congr_value⟩

/-- A node with one child is black, and the child is red. -/
theorem redBlack_only_child {childColor : Color} {childLeft childRight : Tree α}
    {childValue : α} (isNode : (node color left value right).RedBlack other height)
    (one : left = nil ∧ right = node childColor childLeft childValue childRight ∨
      left = node childColor childLeft childValue childRight ∧ right = nil) :
    (node color childLeft childValue childRight).RedBlack other height := by
  rcases one with ⟨rfl, rfl⟩ | ⟨rfl, rfl⟩
  · cases isNode with
    | red below beside =>
        cases below
        cases beside
    | black below beside =>
        cases below
        cases beside with
        | red below beside => exact .black below beside
  · cases isNode with
    | red below beside =>
        cases beside
        cases below
    | black below beside =>
        cases beside
        cases below with
        | red below beside => exact .black below beside

/-- Erasing keeps a balanced tree balanced. -/
theorem balanced_eraseAt (balanced : (plug path (node color left value right)).Balanced) :
    (eraseAt color left right path).Balanced := by
  obtain ⟨_, height, isNode, fits⟩ := fits_of_plug balanced
  fun_cases eraseAt color left right path with
  | case1 =>
      cases isNode with
      | red below beside =>
          cases below
          exact balanced_plug .nil fits.weaken
  | case2 =>
      cases isNode with
      | black below beside =>
          cases below
          exact balanced_eraseColor .nil fits
  | case3 => exact balanced_plug (redBlack_only_child isNode (.inl ⟨rfl, rfl⟩)) fits
  | case4 => exact balanced_plug (redBlack_only_child isNode (.inr ⟨rfl, rfl⟩)) fits
  | case5 =>
      rename_i leads _ _
      obtain ⟨_, _, isNext, place⟩ := fits_successor balanced leads
      cases isNext with
      | red below beside =>
          cases below
          cases beside
      | black below beside =>
          cases below
          cases beside with
          | red below beside => exact balanced_plug (.black below beside) place
  | case6 =>
      rename_i leads _ _
      obtain ⟨_, _, isNext, place⟩ := fits_successor balanced leads
      cases isNext with
      | red below beside =>
          cases below
          exact balanced_plug .nil place.weaken
  | case7 =>
      rename_i leads _ _
      obtain ⟨_, _, isNext, place⟩ := fits_successor balanced leads
      cases isNext with
      | black below beside =>
          cases below
          exact balanced_eraseColor .nil place

end Balance

/-- Every value of the sequence is the one of a node, with what is in front of it and what is
behind it around the node. -/
theorem exists_plug_of_toList {front back : List α} (base : List (Frame α))
    (split : tree.toList = front ++ value :: back) :
    ∃ path color left right, plug path (node color left value right) = plug base tree ∧
      before path ++ left.toList = before base ++ front ∧
      right.toList ++ after path = back ++ after base := by
  induction tree generalizing base front back with
  | nil => simp at split
  | node color left here right ihLeft ihRight =>
      rcases List.append_eq_append_iff.mp split with ⟨middle, isFront, rest⟩ |
        ⟨middle, isLeft, rest⟩
      · cases middle with
        | nil =>
            obtain ⟨rfl, rfl⟩ := List.cons.inj rest
            exact ⟨base, color, left, right, rfl, by simp [isFront], rfl⟩
        | cons first middle =>
            obtain ⟨rfl, isRight⟩ := List.cons.inj rest
            obtain ⟨path, color', left', right', whole, ahead, behind⟩ :=
              ihRight (⟨.right, color, here, left⟩ :: base) isRight
            exact ⟨path, color', left', right', whole, by simp [ahead, before, isFront], behind⟩
      · cases middle with
        | nil =>
            obtain ⟨rfl, rfl⟩ := List.cons.inj rest
            exact ⟨base, color, left, right, rfl, by simp [isLeft], rfl⟩
        | cons first middle =>
            obtain ⟨rfl, isBack⟩ := List.cons.inj rest
            obtain ⟨path, color', left', right', whole, ahead, behind⟩ :=
              ihLeft (⟨.left, color, here, right⟩ :: base) isLeft
            exact ⟨path, color', left', right', whole, ahead, by simp [behind, after, isBack]⟩

/-- The number of nodes on the longest way down. -/
def depth : Tree α → Nat
  | nil => 0
  | node _ left _ right => 1 + max left.depth right.depth

/-- A red root adds one node to the two for each black one. -/
theorem RedBlack.depth_le_twice (balanced : tree.RedBlack color height) :
    tree.depth ≤ 2 * height + (if color = .red then 1 else 0) := by
  induction balanced with
  | nil => exact Nat.le_refl 0
  | red below beside ihBelow ihBeside =>
      simp only [Tree.depth, reduceCtorEq, ↓reduceIte] at *
      omega
  | black below beside ihBelow ihBeside =>
      simp only [Tree.depth, reduceCtorEq, ↓reduceIte]
      split at ihBelow <;> split at ihBeside <;> omega

theorem RedBlack.pow_le (balanced : tree.RedBlack color height) :
    2 ^ height ≤ tree.toList.length + 1 := by
  induction balanced with
  | nil => exact Nat.le_refl 1
  | red below beside ihBelow ihBeside =>
      rw [toList_node, List.length_append, List.length_cons]
      exact ihBelow.trans (Nat.add_le_add_right (Nat.le_add_right ..) 1)
  | black below beside ihBelow ihBeside =>
      rw [toList_node, List.length_append, List.length_cons, Nat.pow_succ, Nat.mul_two,
        ← Nat.add_right_comm]
      exact Nat.add_le_add ihBelow ihBeside

/-- The ways down a balanced tree are short. -/
theorem Balanced.depth_le (balanced : tree.Balanced) :
    tree.depth ≤ 2 * Nat.log 2 (tree.toList.length + 1) := by
  obtain ⟨height, balanced⟩ := balanced
  have twice : tree.depth ≤ 2 * height := balanced.depth_le_twice
  have short : height ≤ Nat.log 2 (tree.toList.length + 1) :=
    Nat.le_log_of_pow_le (by decide) balanced.pow_le
  omega

/-- The values with which a descent compares, from the root on. -/
def descent (steer : α → Ordering) : Tree α → List α
  | nil => []
  | node _ left value right =>
      match steer value with
      | .lt => value :: descent steer left
      | .gt => value :: descent steer right
      | .eq => [value]

/-- A descent makes no more comparisons than the tree is high. -/
theorem length_descent_le (steer : α → Ordering) (tree : Tree α) :
    (tree.descent steer).length ≤ tree.depth := by
  induction tree with
  | nil => exact Nat.le_refl 0
  | node color left here right ihLeft ihRight =>
      rw [descent, depth]
      split
      · rw [List.length_cons]
        omega
      · rw [List.length_cons]
        omega
      · rw [List.length_singleton]
        omega

/-- A descent that falls off has made one comparison for each frame of the way back. -/
theorem length_of_locate {steer : α → Ordering} {leaf : List (Frame α)}
    (fell : tree.locate steer path = .inr leaf) :
    leaf.length = path.length + (tree.descent steer).length := by
  induction tree generalizing path with
  | nil =>
      cases fell
      rfl
  | node color left here right ihLeft ihRight =>
      cases way : steer here with
      | lt =>
          simp only [locate, way] at fell
          simp only [descent, way, ihLeft fell, List.length_cons]
          omega
      | gt =>
          simp only [locate, way] at fell
          simp only [descent, way, ihRight fell, List.length_cons]
          omega
      | eq =>
          simp only [locate, way] at fell
          cases fell

/-- A descent that stops does so at the value it has compared with last. -/
theorem descent_of_locate {steer : α → Ordering} {value : α}
    (stopped : tree.locate steer path = .inl value) :
    ∃ passed, tree.descent steer = passed ++ [value] := by
  induction tree generalizing path with
  | nil => cases stopped
  | node color left here right ihLeft ihRight =>
      cases way : steer here with
      | lt =>
          simp only [locate, way] at stopped
          obtain ⟨passed, below⟩ := ihLeft stopped
          exact ⟨here :: passed, by simp only [descent, way, below, List.cons_append]⟩
      | gt =>
          simp only [locate, way] at stopped
          obtain ⟨passed, below⟩ := ihRight stopped
          exact ⟨here :: passed, by simp only [descent, way, below, List.cons_append]⟩
      | eq =>
          simp only [locate, way] at stopped
          cases stopped
          exact ⟨[], by simp only [descent, way, List.nil_append]⟩

section Map

variable {β : Type*} (rename : α → β)

def map : Tree α → Tree β
  | nil => nil
  | node color left value right => node color left.map (rename value) right.map

def mapFrame (frame : Frame α) : Frame β :=
  ⟨frame.side, frame.color, rename frame.value, frame.sibling.map rename⟩

theorem toList_map (tree : Tree α) : (tree.map rename).toList = tree.toList.map rename := by
  induction tree with
  | nil => rfl
  | node color left value right ihLeft ihRight => simp [map, ihLeft, ihRight]

variable {rename}

theorem RedBlack.map {color : Color} {height : Nat} (balanced : tree.RedBlack color height) :
    (tree.map rename).RedBlack color height := by
  induction balanced with
  | nil => exact .nil
  | red below beside ihBelow ihBeside => exact .red ihBelow ihBeside
  | black below beside ihBelow ihBeside => exact .black ihBelow ihBeside

theorem Balanced.map (balanced : tree.Balanced) : (tree.map rename).Balanced := by
  obtain ⟨height, balanced⟩ := balanced
  exact ⟨height, balanced.map⟩

/-- A descent looks at the values only. -/
theorem locate_map {steer : β → Ordering} {steer' : α → Ordering} {path : List (Frame α)}
    (same : ∀ value ∈ tree.toList, steer (rename value) = steer' value) :
    (tree.map rename).locate steer (path.map (mapFrame rename)) =
      (tree.locate steer' path).map rename (List.map (mapFrame rename)) := by
  induction tree generalizing path with
  | nil => rfl
  | node color left value right ihLeft ihRight =>
      have here := same value (by simp)
      have inLeft : ∀ value ∈ left.toList, steer (rename value) = steer' value :=
        fun value member => same value (by simp [member])
      have inRight : ∀ value ∈ right.toList, steer (rename value) = steer' value :=
        fun value member => same value (by simp [member])
      rw [map, locate, locate, here]
      cases steer' value with
      | lt =>
          have deeper := @ihLeft (⟨.left, color, value, right⟩ :: path) inLeft
          exact deeper
      | eq => rfl
      | gt =>
          have deeper := @ihRight (⟨.right, color, value, left⟩ :: path) inRight
          exact deeper

theorem plug_map (path : List (Frame α)) (tree : Tree α) :
    (plug path tree).map rename = plug (path.map (mapFrame rename)) (tree.map rename) := by
  induction path generalizing tree with
  | nil => rfl
  | cons frame path ih =>
      rw [plug, ih, List.map_cons, plug]
      congr 1
      cases side : frame.side with
      | left => simp [attach, mapFrame, map, side]
      | right => simp [attach, mapFrame, map, side]

theorem blacken_map (tree : Tree α) : tree.blacken.map rename = (tree.map rename).blacken := by
  cases tree with
  | nil => rfl
  | node color left value right => rfl

theorem insertColor_map (left : Tree α) (value : α) (right : Tree α) (path : List (Frame α)) :
    (insertColor left value right path).map rename =
      insertColor (left.map rename) (rename value) (right.map rename)
        (path.map (mapFrame rename)) := by
  fun_induction insertColor left value right path with
  | case1 => rfl
  | case2 left value right parent rest black =>
      obtain ⟨side, color, top, sibling⟩ := parent
      subst black
      rw [plug_map]
      rfl
  | case3 left value right parent red =>
      obtain ⟨side, color, top, sibling⟩ := parent
      subst red
      rw [plug_map]
      rfl
  | case4 left value right parent red gparent rest _ _ _ uncle side ih =>
      obtain ⟨pside, pcolor, top, sibling⟩ := parent
      obtain ⟨gside, gcolor, gtop, gsibling⟩ := gparent
      subst red side uncle
      rw [ih]
      cases pside with
      | left => rfl
      | right => rfl
  | case5 left value right parent red gparent rest _ _ _ uncle side ih =>
      obtain ⟨pside, pcolor, top, sibling⟩ := parent
      obtain ⟨gside, gcolor, gtop, gsibling⟩ := gparent
      subst red side uncle
      rw [ih]
      cases pside with
      | left => rfl
      | right => rfl
  | case6 left value right parent red gparent rest gside pside black
  | case7 left value right parent red gparent rest gside pside black
  | case8 left value right parent red gparent rest gside pside black
  | case9 left value right parent red gparent rest gside pside black =>
      obtain ⟨_, _, top, sibling⟩ := parent
      obtain ⟨_, gcolor, gtop, uncle⟩ := gparent
      subst red gside pside
      rw [plug_map]
      simp only [map, blacken_map]
      cases uncle with
      | nil => rfl
      | node color uncleLeft this uncleRight =>
          cases color with
          | red => exact absurd rfl (black uncleLeft this uncleRight)
          | black => rfl

theorem link_map (path : List (Frame α)) (value : α) :
    (link path value).map rename = link (path.map (mapFrame rename)) (rename value) :=
  insertColor_map nil value nil path

end Map

end Tree

end DwBpf
