import Mathlib.Data.List.Basic
import Mathlib.Order.Compare
import Mathlib.Order.Lattice

/-! # Search trees steered by a comparison

A binary search tree whose descents are steered by a function from the stored
values to `Ordering`: `.lt` descends to the left, `.gt` to the right and `.eq`
stops. A descent that falls off the tree leaves the path back to the root, and
a value is linked at its end as a red leaf and rebalanced upwards with the
recolourings and rotations of a red-black tree.

Everything a client needs is stated about the in-order sequence. Linking adds
one value and moves nothing (`DwBpf.Tree.toList_link`). When the sequence is
steered (`DwBpf.Tree.Steered`), a descent misses only if no value answers
`.eq`, and the values before and after the fresh leaf are the ones to its left
and right (`DwBpf.Tree.locate_inr_steered`).
-/

namespace DwBpf

inductive Color where
  | red
  | black
  deriving DecidableEq, Repr

inductive Side where
  | left
  | right
  deriving DecidableEq, Repr

inductive Tree (α : Type*) where
  | nil
  | node (color : Color) (left : Tree α) (value : α) (right : Tree α)
  deriving DecidableEq, Repr

/-- One step of the way from a subtree up to the root: the side of the parent
on which the subtree hangs, and the parent's colour, value and other child. -/
structure Frame (α : Type*) where
  side : Side
  color : Color
  value : α
  sibling : Tree α

namespace Tree

variable {α : Type*}

/-- The in-order sequence of the stored values. -/
def toList : Tree α → List α
  | nil => []
  | node _ left value right => left.toList ++ value :: right.toList

@[simp] theorem toList_nil : (nil : Tree α).toList = [] := rfl

@[simp] theorem toList_node (color : Color) (left : Tree α) (value : α) (right : Tree α) :
    (node color left value right).toList = left.toList ++ value :: right.toList := rfl

/-- The first value of the in-order sequence: descend to the left. -/
def first? : Tree α → Option α
  | nil => none
  | node _ left value _ => left.first?.or (some value)

theorem first?_eq_head? (tree : Tree α) : tree.first? = tree.toList.head? := by
  induction tree with
  | nil => rfl
  | node color left value right ihLeft ihRight =>
      rw [first?, ihLeft, toList_node, List.head?_append]
      rfl

/-- A tree of a given in-order sequence. -/
def ofList : List α → Tree α
  | [] => nil
  | value :: values => node .black nil value (ofList values)

@[simp] theorem toList_ofList (values : List α) : (ofList values).toList = values := by
  induction values with
  | nil => rfl
  | cons value values ih => rw [ofList, toList_node, ih, toList_nil, List.nil_append]

def blacken : Tree α → Tree α
  | nil => nil
  | node _ left value right => node .black left value right

@[simp] theorem toList_blacken (tree : Tree α) : tree.blacken.toList = tree.toList := by
  cases tree <;> rfl

/-- Hang a subtree below the frame. -/
def attach (frame : Frame α) (tree : Tree α) : Tree α :=
  match frame.side with
  | .left => node frame.color tree frame.value frame.sibling
  | .right => node frame.color frame.sibling frame.value tree

theorem toList_attach (frame : Frame α) (tree : Tree α) :
    (attach frame tree).toList = match frame.side with
      | .left => tree.toList ++ frame.value :: frame.sibling.toList
      | .right => frame.sibling.toList ++ frame.value :: tree.toList := by
  cases side : frame.side <;> simp [attach, side]

/-- Rebuild the whole tree around a subtree, from the path above it. -/
def plug : List (Frame α) → Tree α → Tree α
  | [], tree => tree
  | frame :: path, tree => plug path (attach frame tree)

/-- The values in front of the subtree the path leads to. -/
def before : List (Frame α) → List α
  | [] => []
  | frame :: path =>
      match frame.side with
      | .left => before path
      | .right => before path ++ (frame.sibling.toList ++ [frame.value])

/-- The values behind the subtree the path leads to. -/
def after : List (Frame α) → List α
  | [] => []
  | frame :: path =>
      match frame.side with
      | .left => frame.value :: frame.sibling.toList ++ after path
      | .right => after path

theorem toList_plug (path : List (Frame α)) (tree : Tree α) :
    (plug path tree).toList = before path ++ tree.toList ++ after path := by
  induction path generalizing tree with
  | nil => simp [plug, before, after]
  | cons frame path ih =>
      rw [plug, ih]
      cases side : frame.side <;> simp [attach, before, after, side]

/-- Rebalance upwards from a freshly linked red node, given by its two children
and its value: stop below a black parent, recolour below a red uncle and go on
at the grandparent, and rotate otherwise. A red parent without a grandparent
would be a red root, which no tree built here has. -/
def insertColor (left : Tree α) (value : α) (right : Tree α) : List (Frame α) → Tree α
  | [] => node .black left value right
  | parent :: rest =>
      match parent.color with
      | .black => plug (parent :: rest) (node .red left value right)
      | .red =>
          match rest with
          | [] => plug [parent] (node .red left value right)
          | gparent :: rest =>
              match gparent.side, gparent.sibling with
              | .left, node .red uncleLeft uncle uncleRight =>
                  insertColor (attach { parent with color := .black } (node .red left value right))
                    gparent.value (node .black uncleLeft uncle uncleRight) rest
              | .right, node .red uncleLeft uncle uncleRight =>
                  insertColor (node .black uncleLeft uncle uncleRight) gparent.value
                    (attach { parent with color := .black } (node .red left value right)) rest
              | .left, uncle =>
                  match parent.side with
                  | .right => plug rest (node gparent.color
                      (node .red parent.sibling parent.value left.blacken) value
                      (node .red right.blacken gparent.value uncle))
                  | .left => plug rest (node gparent.color
                      (node .red left value right) parent.value
                      (node .red parent.sibling.blacken gparent.value uncle))
              | .right, uncle =>
                  match parent.side with
                  | .left => plug rest (node gparent.color
                      (node .red uncle gparent.value left.blacken) value
                      (node .red right.blacken parent.value parent.sibling))
                  | .right => plug rest (node gparent.color
                      (node .red uncle gparent.value parent.sibling.blacken) parent.value
                      (node .red left value right))

/-- Rebalancing keeps the in-order sequence. -/
theorem toList_insertColor (left : Tree α) (value : α) (right : Tree α) (path : List (Frame α)) :
    (insertColor left value right path).toList =
      before path ++ (left.toList ++ value :: right.toList) ++ after path := by
  fun_induction insertColor left value right path with
  | case1 => simp [before, after]
  | case2 => simp [toList_plug]
  | case3 => simp [toList_plug]
  | case4 left value right parent red gparent rest _ _ _ uncle side ih =>
      rw [ih]
      cases parentSide : parent.side <;>
        simp [toList_attach, before, after, parentSide, side, uncle]
  | case5 left value right parent red gparent rest _ _ _ uncle side ih =>
      rw [ih]
      cases parentSide : parent.side <;>
        simp [toList_attach, before, after, parentSide, side, uncle]
  | case6 | case7 | case8 | case9 =>
      simp_all [toList_plug, before, after]

/-- Link a value at the end of a failed descent and rebalance. -/
def link (path : List (Frame α)) (value : α) : Tree α := insertColor nil value nil path

theorem toList_link (path : List (Frame α)) (value : α) :
    (link path value).toList = before path ++ value :: after path := by
  simp [link, toList_insertColor]

/-- Descend from the root of `tree`, which hangs below `path`: the value at
which the descent stops, or the path at whose end it falls off. -/
def locate (steer : α → Ordering) : Tree α → List (Frame α) → α ⊕ List (Frame α)
  | nil, path => .inr path
  | node color left value right, path =>
      match steer value with
      | .lt => locate steer left (⟨.left, color, value, right⟩ :: path)
      | .gt => locate steer right (⟨.right, color, value, left⟩ :: path)
      | .eq => .inl value

/-- The value at which a descent from the root stops. -/
def find? (steer : α → Ordering) (tree : Tree α) : Option α :=
  match tree.locate steer [] with
  | .inl value => some value
  | .inr _ => none

variable {steer : α → Ordering}

/-- A descent stops at a value of the tree that it was steered to. -/
theorem locate_inl {tree : Tree α} {path : List (Frame α)} {value : α}
    (stopped : tree.locate steer path = .inl value) :
    value ∈ tree.toList ∧ steer value = .eq := by
  induction tree generalizing path with
  | nil => cases stopped
  | node color left here right ihLeft ihRight =>
      rw [locate] at stopped
      split at stopped
      · exact ⟨by simp [(ihLeft stopped).1], (ihLeft stopped).2⟩
      · exact ⟨by simp [(ihRight stopped).1], (ihRight stopped).2⟩
      · rename_i matched
        cases stopped
        exact ⟨by simp, matched⟩

/-- A descent depends on the comparisons with the values of the tree only. -/
theorem locate_congr {steer' : α → Ordering} {tree : Tree α}
    (agree : ∀ value ∈ tree.toList, steer value = steer' value) (path : List (Frame α)) :
    tree.locate steer path = tree.locate steer' path := by
  induction tree generalizing path with
  | nil => rfl
  | node color left here right ihLeft ihRight =>
      rw [locate, locate, agree here (by simp)]
      split
      · exact ihLeft (fun value member => agree value (by simp [member])) _
      · exact ihRight (fun value member => agree value (by simp [member])) _
      · rfl

/-- A descent that falls off splits the in-order sequence at the new leaf. -/
theorem locate_inr {tree : Tree α} {path leaf : List (Frame α)}
    (fell : tree.locate steer path = .inr leaf) :
    before leaf ++ after leaf = before path ++ tree.toList ++ after path := by
  induction tree generalizing path with
  | nil =>
      cases fell
      simp
  | node color left here right ihLeft ihRight =>
      rw [locate] at fell
      split at fell
      · rw [ihLeft fell]
        simp [before, after]
      · rw [ihRight fell]
        simp [before, after]
      · cases fell

theorem toList_link_of_locate {tree : Tree α} {leaf : List (Frame α)} (value : α)
    (fell : tree.locate steer [] = .inr leaf) :
    (link leaf value).toList.Perm (value :: tree.toList) := by
  have split := locate_inr fell
  simp only [before, after, List.nil_append, List.append_nil] at split
  rw [toList_link, ← split]
  exact List.perm_middle

/-- A sequence is steered when the values to the left of one that sends the
descent right, and those to the right of one that sends it left, agree. -/
def Steered (steer : α → Ordering) (values : List α) : Prop :=
  values.Pairwise fun first second =>
    (steer first = .lt → steer second = .lt) ∧ (steer second = .gt → steer first = .gt)

/-- On a steered sequence a descent that falls off has every value in front of
the new leaf on its left and every value behind it on its right. -/
theorem locate_inr_steered {tree : Tree α} {path leaf : List (Frame α)}
    (steered : Steered steer tree.toList) (fell : tree.locate steer path = .inr leaf) :
    ∃ front back, tree.toList = front ++ back ∧
      before leaf = before path ++ front ∧ after leaf = back ++ after path ∧
      (∀ value ∈ front, steer value = .gt) ∧ ∀ value ∈ back, steer value = .lt := by
  induction tree generalizing path with
  | nil =>
      cases fell
      exact ⟨[], [], by simp⟩
  | node color left here right ihLeft ihRight =>
      obtain ⟨leftSteered, rightSteered, across⟩ := List.pairwise_append.mp steered
      rw [List.pairwise_cons] at rightSteered
      rw [locate] at fell
      split at fell
      · rename_i below
        obtain ⟨front, back, split, ahead, behind, low, high⟩ := ihLeft leftSteered fell
        refine ⟨front, back ++ here :: right.toList, by simp [split], ahead, ?_, low, ?_⟩
        · simp [behind, after]
        · intro value member
          rcases List.mem_append.mp member with inside | inside
          · exact high value inside
          · rcases List.mem_cons.mp inside with rfl | inside
            · exact below
            · exact (rightSteered.1 value inside).1 below
      · rename_i above
        obtain ⟨front, back, split, ahead, behind, low, high⟩ := ihRight rightSteered.2 fell
        refine ⟨left.toList ++ here :: front, back, by simp [split], ?_, behind, ?_, high⟩
        · simp [ahead, before]
        · intro value member
          rcases List.mem_append.mp member with inside | inside
          · exact (across value inside here (by simp)).2 above
          · rcases List.mem_cons.mp inside with rfl | inside
            · exact above
            · exact low value inside
      · cases fell

theorem find?_eq_some {tree : Tree α} {value : α} (found : tree.find? steer = some value) :
    value ∈ tree.toList ∧ steer value = .eq := by
  unfold find? at found
  split at found
  · rename_i stopped
    cases found
    exact locate_inl stopped
  · cases found

/-- On a steered sequence a search misses exactly when no value answers `.eq`. -/
theorem find?_eq_none {tree : Tree α} (steered : Steered steer tree.toList) :
    tree.find? steer = none ↔ ∀ value ∈ tree.toList, steer value ≠ .eq := by
  unfold find?
  cases located : tree.locate steer [] with
  | inl value =>
      have stopped := locate_inl located
      simp only [reduceCtorEq, false_iff, not_forall, not_not]
      exact ⟨value, stopped.1, stopped.2⟩
  | inr leaf =>
      obtain ⟨front, back, split, -, -, low, high⟩ := locate_inr_steered steered located
      simp only [split, true_iff]
      intro value member
      rcases List.mem_append.mp member with inside | inside
      · simp [low value inside]
      · simp [high value inside]

/-- Linking a value where a descent fell off keeps a relation between what comes
first and what comes later, if the value is so related to what the descent passed. -/
theorem pairwise_link {relation : α → α → Prop} {tree : Tree α} {leaf : List (Frame α)} {value : α}
    (steered : Steered steer tree.toList) (related : tree.toList.Pairwise relation)
    (fell : tree.locate steer [] = .inr leaf)
    (low : ∀ stored ∈ tree.toList, steer stored = .gt → relation stored value)
    (high : ∀ stored ∈ tree.toList, steer stored = .lt → relation value stored) :
    (link leaf value).toList.Pairwise relation := by
  obtain ⟨front, back, split, ahead, behind, below, above⟩ := locate_inr_steered steered fell
  simp only [before, after, List.nil_append, List.append_nil] at ahead behind
  rw [split] at related low high
  obtain ⟨frontRelated, backRelated, across⟩ := List.pairwise_append.mp related
  rw [toList_link, ahead, behind]
  refine List.pairwise_append.mpr ⟨frontRelated, List.pairwise_cons.mpr ⟨?_, backRelated⟩, ?_⟩
  · intro stored member
    exact high stored (List.mem_append_right _ member) (above stored member)
  · intro stored member other otherMem
    rcases List.mem_cons.mp otherMem with rfl | inside
    · exact low stored (List.mem_append_left _ member) (below stored member)
    · exact across stored member other inside

section Keyed

variable {κ : Type*} [LinearOrder κ] {key : α → κ} {sought : κ}

/-- Comparing one key with the keys of a sorted sequence steers it. -/
theorem steered_of_sorted {values : List α}
    (agree : ∀ value ∈ values, steer value = compare sought (key value))
    (sorted : values.Pairwise fun first second => key first ≤ key second) :
    Steered steer values := by
  refine sorted.imp_of_mem ?_
  intro first second firstMem secondMem below
  rw [agree first firstMem, agree second secondMem, compare_lt_iff_lt, compare_lt_iff_lt,
    compare_gt_iff_gt, compare_gt_iff_gt]
  exact ⟨fun lower => lt_of_lt_of_le lower below, fun higher => lt_of_le_of_lt below higher⟩

/-- Linking a fresh key keeps a sequence strictly sorted by key. -/
theorem sorted_link {tree : Tree α} {leaf : List (Frame α)} {value : α}
    (agree : ∀ stored ∈ tree.toList, steer stored = compare (key value) (key stored))
    (sorted : tree.toList.Pairwise fun first second => key first < key second)
    (fell : tree.locate steer [] = .inr leaf) :
    (link leaf value).toList.Pairwise fun first second => key first < key second := by
  refine pairwise_link (steered_of_sorted agree (sorted.imp le_of_lt)) sorted fell ?_ ?_
  · intro stored member answer
    rwa [agree stored member, compare_gt_iff_gt] at answer
  · intro stored member answer
    rwa [agree stored member, compare_lt_iff_lt] at answer

end Keyed

section Intervals

variable {κ : Type*} [LinearOrder κ] {start stop : α → κ} {sought : κ}

/-- Going right from every key that is not above the one sought, as an insertion
that lets equal keys in does, steers a sorted sequence. -/
theorem steered_of_le {values : List α}
    (agree : ∀ value ∈ values, steer value = if sought < start value then .lt else .gt)
    (sorted : values.Pairwise fun first second => start first ≤ start second) :
    Steered steer values := by
  refine sorted.imp_of_mem ?_
  intro first second firstMem secondMem below
  rw [agree first firstMem, agree second secondMem]
  by_cases left : sought < start first
  · simp [left, lt_of_lt_of_le left below]
  · simp [left]

/-- Linking a value there keeps the sequence sorted, with equal keys in it. -/
theorem sorted_le_link {tree : Tree α} {leaf : List (Frame α)} {value : α}
    (agree : ∀ stored ∈ tree.toList, steer stored = if start value < start stored then .lt else .gt)
    (sorted : tree.toList.Pairwise fun first second => start first ≤ start second)
    (fell : tree.locate steer [] = .inr leaf) :
    (link leaf value).toList.Pairwise fun first second => start first ≤ start second := by
  refine pairwise_link (steered_of_le agree sorted) sorted fell ?_ ?_
  · intro stored member answer
    rw [agree stored member] at answer
    by_contra above
    simp [not_le.mp above] at answer
  · intro stored member answer
    rw [agree stored member] at answer
    by_contra below
    simp [not_lt.mpr (le_of_lt (not_le.mp below))] at answer

/-- Two values have the same interval, or theirs do not overlap. -/
def Apart (start stop : α → κ) (first second : α) : Prop :=
  (start first = start second ∧ stop first = stop second) ∨ stop first ≤ start second ∨
    stop second ≤ start first

/-- The search for an interval branches on both ends. It is steered by intervals
that are sorted by their starts and apart, also if some are there repeatedly. -/
theorem steered_of_apart {values : List α}
    (agree : ∀ value ∈ values, steer value =
      if sought < start value then .lt else if stop value ≤ sought then .gt else .eq)
    (proper : ∀ value ∈ values, start value < stop value)
    (apart : ∀ first ∈ values, ∀ second ∈ values, Apart start stop first second)
    (sorted : values.Pairwise fun first second => start first ≤ start second) :
    Steered steer values := by
  refine sorted.imp_of_mem ?_
  intro first second firstMem secondMem below
  rw [agree first firstMem, agree second secondMem]
  constructor
  · intro left
    have lower : sought < start first := by
      by_contra notLower
      simp only [notLower, ↓reduceIte] at left
      split at left
      · cases left
      · cases left
    rw [if_pos (lt_of_lt_of_le lower below)]
  · intro right
    have above : ¬ sought < start second ∧ stop second ≤ sought := by
      split at right
      · cases right
      · rename_i notLower
        split at right
        · rename_i higher
          exact ⟨notLower, higher⟩
        · cases right
    have ends : stop first ≤ sought := by
      rcases apart first firstMem second secondMem with same | front | behind
      · exact same.2 ▸ above.2
      · exact front.trans (not_lt.mp above.1)
      · exact absurd (behind.trans below) (not_le.mpr (proper second secondMem))
    rw [if_neg (not_lt.mpr (below.trans (not_lt.mp above.1))), if_pos ends]

end Intervals

end Tree

end DwBpf
