import DwBpf.Rbtree.Walk

/-! # Ordered dictionaries

What the callers use the trees for: each root holds nodes that are ordered by a key of the
objects around them. The rows of nodes, one for each root, are the abstract state
(`DwBpf.Rb.Rows`), and the operations of `rbtree.c` on any number of roots in one memory do
to the trees what they are meant to do to the rows.
-/

namespace DwBpf.Rb

open DwBpf.Tree

variable {mem mem' : Memory} {root value : U64} {tree : Tree U64} {bound : Nat}
  {front back : List U64}

/-- A tree of a given sequence of nodes at a root. -/
def Holds (mem : Memory) (root : U64) (row : List U64) : Prop :=
  ∃ tree, Represents mem root tree ∧ tree.Balanced ∧ tree.toList = row

/-- Operations on other roots, and with other nodes, do not matter. -/
theorem Holds.within {row region : List U64} {other : U64} (holds : Holds mem other row)
    (within : Within mem mem' root region) (different : other ≠ root)
    (apart : ∀ rb ∈ row, rb ∉ region) : Holds mem' other row := by
  obtain ⟨tree, represents, balanced, rfl⟩ := holds
  refine ⟨tree, ⟨represents.1.within within apart, ?_⟩, balanced, rfl⟩
  rw [within.roots other different, represents.2]

theorem Holds.depth_le {row : List U64} (holds : Holds mem root row)
    (enough : 2 * Nat.log 2 (row.length + 1) < bound) :
    ∃ tree, Represents mem root tree ∧ tree.Balanced ∧ tree.toList = row ∧ tree.depth < bound := by
  obtain ⟨tree, represents, balanced, rfl⟩ := holds
  exact ⟨tree, represents, balanced, rfl, lt_of_le_of_lt balanced.depth_le enough⟩

/-- Erasing a node takes it out of the row, and marks it with `RB_CLEAR_NODE`. -/
theorem eraseInit_eq (holds : Holds mem root (front ++ value :: back))
    (nodup : (front ++ value :: back).Nodup)
    (enough : 2 * Nat.log 2 ((front ++ value :: back).length + 1) < bound) :
    ∃ mem', eraseInit bound mem value root = .ok mem' ∧ Holds mem' root (front ++ back) ∧
      mem'.parentColor value = value ∧ Within mem mem' root (front ++ value :: back) := by
  obtain ⟨tree, represents, balanced, split, shallow⟩ := holds.depth_le enough
  rw [← split] at nodup
  obtain ⟨path, color, left, right, whole, ahead, behind⟩ := exists_plug_of_toList [] split
  rw [plug] at whole
  rw [before, List.nil_append] at ahead
  rw [after, List.append_nil] at behind
  rw [← whole] at represents balanced nodup shallow
  obtain ⟨mem₁, erases, represents₁, within₁⟩ :=
    erase_eq balanced represents nodup (Nat.le_of_lt shallow)
  have live : mem₁.nodes.live value = true := by
    rw [within₁.nodes]
    refine represents.1.live ?_
    rw [whole, split]
    simp
  have row : (eraseAt color left right path).toList = front ++ back := by
    rw [toList_eraseAt, ← List.append_assoc, ahead, List.append_assoc, behind]
  have fresh : value ∉ (eraseAt color left right path).toList :=
    (List.nodup_cons.mp ((perm_eraseAt color left value right path).nodup_iff.mp nodup)).1
  have clears : Within mem₁ (mem₁.putWord value value) root [value] :=
    within_putWord root _ _ (by simp)
  refine ⟨mem₁.putWord value value, ?_, ⟨_, ⟨?_, represents₁.2⟩, balanced_eraseAt balanced, row⟩,
    ?_, ?_⟩
  · rw [eraseInit, erases, ok_bind, clearNode, Memory.setWord_of_live _ live]
  · refine represents₁.1.within clears ?_
    intro rb member same
    rw [List.mem_singleton.mp same] at member
    exact fresh member
  · simp
  · rw [whole, split] at within₁
    exact within₁.trans (clears.mono (by simp))

/-- The operations of the callers: insert a node at a root, and erase it from there. -/
inductive Command where
  | insert (root entry : U64)
  | erase (root entry : U64)
  deriving DecidableEq, Repr

/-- The nodes at each root, in their order. -/
abbrev Rows := U64 → List U64

section Runs

variable {κ : Type*} [LinearOrder κ] (key : U64 → κ) (multi : U64 → Bool)

/-- The comparison of the callers: with the same key again, they stop at the node that is
there, except `maps__insert`, which goes on to the right. -/
def steer (root entry this : U64) : Ordering :=
  if multi root then
    if key entry < key this then .lt else .gt
  else
    compare (key entry) (key this)

/-- One operation: what an insertion found, and the memory afterwards. -/
def step (bound : Nat) : Command → Memory → Except Failure (Option U64 × Memory)
  | .insert root entry, mem => insert bound (steer key multi root entry) mem entry root
  | .erase root entry, mem => do return (none, ← eraseInit bound mem entry root)

namespace Rows

/-- The node with the key of a new one. -/
def found (rows : Rows) (root entry : U64) : Option U64 :=
  if multi root then none else (rows root).find? fun this => key this = key entry

/-- The row with a new node behind the ones with smaller keys. -/
def entered (row : List U64) (entry : U64) : List U64 :=
  row.filter (fun this => ¬ key entry < key this) ++
    entry :: row.filter (fun this => key entry < key this)

/-- What the operations mean. -/
def step (rows : Rows) : Command → Option U64 × Rows
  | .insert root entry =>
      match rows.found key multi root entry with
      | some this => (some this, rows)
      | none => (none, Function.update rows root (entered key (rows root) entry))
  | .erase root entry => (none, Function.update rows root ((rows root).erase entry))

def run (rows : Rows) : List Command → List (Option U64) × Rows
  | [] => ([], rows)
  | command :: commands =>
      let (output, next) := rows.step key multi command
      let (outputs, last) := run next commands
      (output :: outputs, last)

/-- The callers insert nodes that are in no tree, and erase nodes from the tree they are in. -/
def Permits (nodes : Nodes) (rows : Rows) : Command → Prop
  | .insert _ entry => nodes.live entry = true ∧ ∀ root, entry ∉ rows root
  | .erase root entry => entry ∈ rows root

def PermitsAll (nodes : Nodes) (rows : Rows) : List Command → Prop
  | [] => True
  | command :: commands => Permits nodes rows command ∧
      PermitsAll nodes (rows.step key multi command).2 commands

end Rows

/-- The memory holds the rows: each in its order and in a tree at its root, no node in two of
them, and every node in none of them is one that `RB_CLEAR_NODE` has marked. -/
structure Stores (mem : Memory) (rows : Rows) : Prop where
  holds : ∀ root, Holds mem root (rows root)
  nodup : ∀ root, (rows root).Nodup
  apart : ∀ root other rb, rb ∈ rows root → rb ∈ rows other → root = other
  sorted : ∀ root, (rows root).Pairwise fun first second =>
    if multi root then key first ≤ key second else key first < key second
  cleared : ∀ rb, mem.nodes.live rb = true → (∀ root, rb ∉ rows root) → mem.parentColor rb = rb

variable {key multi} {rows : Rows} {entry : U64}

/-- The row of a tree is in the order of its keys. -/
theorem Stores.steered (stores : Stores key multi mem rows) (root entry : U64) :
    Steered (steer key multi root entry) (rows root) := by
  have sorted := stores.sorted root
  cases isMulti : multi root with
  | true =>
      rw [isMulti] at sorted
      have agree : ∀ this ∈ rows root, steer key multi root entry this =
          if key entry < key this then .lt else .gt := by
        intro this member
        simp [steer, isMulti]
      exact steered_of_le agree (sorted.imp (by simp))
  | false =>
      rw [isMulti] at sorted
      have agree : ∀ this ∈ rows root, steer key multi root entry this =
          compare (key entry) (key this) := by
        intro this member
        simp [steer, isMulti]
      exact steered_of_sorted agree (sorted.imp (by simp +contextual [le_of_lt]))

theorem steer_eq_lt {root entry this : U64} :
    steer key multi root entry this = .lt ↔ key entry < key this := by
  unfold steer
  split
  · split <;> simp_all
  · exact compare_lt_iff_lt

theorem steer_eq_gt {root entry this : U64} (isGt : steer key multi root entry this = .gt) :
    ¬ key entry < key this ∧ (multi root = false → key entry ≠ key this) := by
  unfold steer at isGt
  split at isGt
  · split at isGt
    · cases isGt
    · simp_all
  · rw [compare_gt_iff_gt] at isGt
    exact ⟨not_lt_of_gt isGt, fun _ => ne_of_gt isGt⟩

theorem steer_eq_eq {root entry this : U64} (isEq : steer key multi root entry this = .eq) :
    multi root = false ∧ key this = key entry := by
  unfold steer at isEq
  split at isEq
  · split at isEq <;> cases isEq
  · rename_i notMulti
    exact ⟨Bool.eq_false_of_not_eq_true notMulti, (compare_eq_iff_eq.mp isEq).symm⟩

/-- The way down stops at the node with the key, or ends where the new node belongs. -/
theorem Stores.locate (stores : Stores key multi mem rows) {root : U64} (entry : U64)
    (isRow : tree.toList = rows root) :
    match tree.locate (steer key multi root entry) [] with
    | .inl this => rows.found key multi root entry = some this
    | .inr leaf => rows.found key multi root entry = none ∧
        before leaf ++ entry :: after leaf = Rows.entered key (rows root) entry := by
  cases located : tree.locate (steer key multi root entry) [] with
  | inl this =>
      obtain ⟨member, stops⟩ := locate_inl located
      obtain ⟨notMulti, same⟩ := steer_eq_eq stops
      rw [isRow] at member
      have sorted := stores.sorted root
      simp only [notMulti, Bool.false_eq_true, ↓reduceIte] at sorted
      have distinct : ((rows root).map key).Nodup :=
        List.pairwise_map.mpr (sorted.imp fun below => ne_of_lt below)
      simp only [Rows.found, notMulti, Bool.false_eq_true, ↓reduceIte]
      cases finds : (rows root).find? fun this => key this = key entry with
      | none =>
          have missed := List.find?_eq_none.mp finds this member
          exact absurd same (by simpa using missed)
      | some other =>
          have isOther : key other = key entry := by simpa using List.find?_some finds
          exact congrArg some (List.inj_on_of_nodup_map distinct (List.mem_of_find?_eq_some finds)
            member (isOther.trans same.symm))
  | inr leaf =>
      obtain ⟨front, back, split, ahead, behind, low, high⟩ :=
        locate_inr_steered (isRow ▸ stores.steered root entry) located
      simp only [before, after, List.nil_append, List.append_nil] at ahead behind
      rw [isRow] at split
      have below : ∀ this ∈ front, ¬ key entry < key this :=
        fun this member => (steer_eq_gt (low this member)).1
      have aboveKey : ∀ this ∈ back, key entry < key this :=
        fun this member => steer_eq_lt.mp (high this member)
      constructor
      · unfold Rows.found
        split
        · rfl
        · rename_i notMulti
          rw [List.find?_eq_none, split]
          intro this member
          rw [decide_eq_true_eq]
          rcases List.mem_append.mp member with inside | inside
          · exact ((steer_eq_gt (low this inside)).2 (Bool.eq_false_of_not_eq_true notMulti)).symm
          · exact ne_of_gt (aboveKey this inside)
      · have lower : (rows root).filter (fun this => ¬ key entry < key this) = front := by
          rw [split, List.filter_append, List.filter_eq_self.mpr, List.filter_eq_nil_iff.mpr,
            List.append_nil]
          · exact fun this member => by simpa using aboveKey this member
          · exact fun this member => by simpa using below this member
        have upper : (rows root).filter (fun this => key entry < key this) = back := by
          rw [split, List.filter_append, List.filter_eq_nil_iff.mpr, List.filter_eq_self.mpr,
            List.nil_append]
          · exact fun this member => by simpa using aboveKey this member
          · exact fun this member => by simpa using below this member
        rw [Rows.entered, lower, upper, ahead, behind]

/-- A new node keeps a row in order. -/
theorem pairwise_entered {row : List U64} {entry : U64} {weak : Bool}
    (sorted : row.Pairwise fun first second =>
      if weak then key first ≤ key second else key first < key second)
    (absent : weak = false → ∀ this ∈ row, key this ≠ key entry) :
    (Rows.entered key row entry).Pairwise fun first second =>
      if weak then key first ≤ key second else key first < key second := by
  have lower : ∀ this ∈ row.filter (fun this => ¬ key entry < key this),
      if weak then key this ≤ key entry else key this < key entry := by
    intro this member
    obtain ⟨inside, notAbove⟩ := List.mem_filter.mp member
    have below : key this ≤ key entry := not_lt.mp (by simpa using notAbove)
    cases weak with
    | true => exact below
    | false => exact lt_of_le_of_ne below (absent rfl this inside)
  have upper : ∀ this ∈ row.filter (fun this => key entry < key this), key entry < key this := by
    intro this member
    simpa using (List.mem_filter.mp member).2
  refine List.pairwise_append.mpr
    ⟨sorted.filter _, List.pairwise_cons.mpr ⟨?_, sorted.filter _⟩, ?_⟩
  · intro this member
    have above := upper this member
    cases weak with
    | true => exact le_of_lt above
    | false => exact above
  · intro first firstMember second secondMember
    rcases List.mem_cons.mp secondMember with rfl | inside
    · exact lower first firstMember
    · have below := lower first firstMember
      have above := upper second inside
      cases weak with
      | true => exact le_trans below (le_of_lt above)
      | false => exact lt_trans below above

theorem perm_entered (key : U64 → κ) (row : List U64) (entry : U64) :
    (Rows.entered key row entry).Perm (entry :: row) := by
  have halves := List.filter_append_perm (fun this => decide (¬ key entry < key this)) row
  simp only [decide_not, Bool.not_not] at halves
  refine List.perm_middle.trans (List.Perm.cons _ ?_)
  simp only [decide_not]
  exact halves

/-- An operation on one root, of which only its own nodes and nodes in no tree are part. -/
theorem Stores.update {root : U64} {row region : List U64} (stores : Stores key multi mem rows)
    (within : Within mem mem' root region) (covers : ∀ rb ∈ rows root, rb ∈ region)
    (apart : ∀ rb ∈ region, rb ∈ rows root ∨ ∀ other, rb ∉ rows other)
    (inside : ∀ rb ∈ row, rb ∈ region) (holds : Holds mem' root row) (nodup : row.Nodup)
    (sorted : row.Pairwise fun first second =>
      if multi root then key first ≤ key second else key first < key second)
    (cleared : ∀ rb ∈ region, rb ∉ row → mem'.parentColor rb = rb) :
    Stores key multi mem' (Function.update rows root row) := by
  have outside : ∀ other, other ≠ root → ∀ rb ∈ rows other, rb ∉ region := by
    intro other different rb member inRegion
    rcases apart rb inRegion with own | free
    · exact different (stores.apart other root rb member own)
    · exact free other member
  refine ⟨?_, ?_, ?_, ?_, ?_⟩
  · intro other
    by_cases same : other = root
    · subst same
      rw [Function.update_self]
      exact holds
    · rw [Function.update_of_ne same]
      exact (stores.holds other).within within same (outside other same)
  · intro other
    by_cases same : other = root
    · subst same
      rw [Function.update_self]
      exact nodup
    · rw [Function.update_of_ne same]
      exact stores.nodup other
  · intro first second rb inFirst inSecond
    by_cases sameFirst : first = root
    · by_cases sameSecond : second = root
      · rw [sameFirst, sameSecond]
      · rw [sameFirst, Function.update_self] at inFirst
        rw [Function.update_of_ne sameSecond] at inSecond
        exact absurd (inside rb inFirst) (outside second sameSecond rb inSecond)
    · rw [Function.update_of_ne sameFirst] at inFirst
      by_cases sameSecond : second = root
      · rw [sameSecond, Function.update_self] at inSecond
        exact absurd (inside rb inSecond) (outside first sameFirst rb inFirst)
      · rw [Function.update_of_ne sameSecond] at inSecond
        exact stores.apart first second rb inFirst inSecond
  · intro other
    by_cases same : other = root
    · subst same
      rw [Function.update_self]
      exact sorted
    · rw [Function.update_of_ne same]
      exact stores.sorted other
  · intro rb live free
    have notRow : rb ∉ row := by
      have here := free root
      rwa [Function.update_self] at here
    by_cases inRegion : rb ∈ region
    · exact cleared rb inRegion notRow
    · rw [(within.same rb inRegion).word]
      refine stores.cleared rb (by rw [← within.nodes]; exact live) fun other member => ?_
      by_cases same : other = root
      · exact inRegion (covers rb (same ▸ member))
      · have there := free other
        rw [Function.update_of_ne same] at there
        exact there member

/-- Inserting a node into a tree in memory, and into the row. -/
theorem Stores.insert {root entry : U64} (stores : Stores key multi mem rows)
    (permits : Rows.Permits mem.nodes rows (.insert root entry))
    (enough : 2 * Nat.log 2 ((rows root).length + 1) < bound) :
    ∃ mem', step key multi bound (.insert root entry) mem =
        .ok ((rows.step key multi (.insert root entry)).1, mem') ∧ mem'.nodes = mem.nodes ∧
      Stores key multi mem' (rows.step key multi (.insert root entry)).2 := by
  obtain ⟨live, fresh⟩ := permits
  obtain ⟨tree, represents, balanced, isRow, shallow⟩ := (stores.holds root).depth_le enough
  have located := stores.locate entry isRow
  have inserted := insert_eq (steer key multi root entry) balanced represents
    (isRow ▸ stores.nodup root) live (isRow ▸ fresh root) shallow
  cases way : tree.locate (steer key multi root entry) [] with
  | inl this =>
      simp only [way] at located inserted
      refine ⟨mem, ?_, rfl, ?_⟩
      · simp only [step, inserted, Rows.step, located]
      · simp only [Rows.step, located]
        exact stores
  | inr leaf =>
      simp only [way] at located inserted
      obtain ⟨notFound, isEntered⟩ := located
      obtain ⟨mem', inserts, represents', within⟩ := inserted
      refine ⟨mem', ?_, within.nodes, ?_⟩
      · simp only [step, inserts, Rows.step, notFound]
      · simp only [Rows.step, notFound]
        have perm := perm_entered key (rows root) entry
        rw [isRow] at within
        refine stores.update within (fun rb own => List.mem_cons_of_mem _ own) ?_ ?_
          ⟨_, represents', balanced_link balanced way entry, ?_⟩ ?_ ?_ ?_
        · intro rb member
          rcases List.mem_cons.mp member with rfl | own
          · exact Or.inr fresh
          · exact Or.inl own
        · exact fun rb member => perm.mem_iff.mp member
        · rw [toList_link, isEntered]
        · exact perm.nodup_iff.mpr (List.nodup_cons.mpr ⟨fresh root, stores.nodup root⟩)
        · refine pairwise_entered (stores.sorted root) fun notMulti this member => ?_
          simp only [Rows.found, notMulti, Bool.false_eq_true, ↓reduceIte] at notFound
          simpa using List.find?_eq_none.mp notFound this member
        · exact fun rb member absent => absurd (perm.mem_iff.mpr member) absent

/-- Erasing a node from a tree in memory, and from the row. -/
theorem Stores.erase {root entry : U64} (stores : Stores key multi mem rows)
    (permits : Rows.Permits mem.nodes rows (.erase root entry))
    (enough : 2 * Nat.log 2 ((rows root).length + 1) < bound) :
    ∃ mem', step key multi bound (.erase root entry) mem =
        .ok ((rows.step key multi (.erase root entry)).1, mem') ∧ mem'.nodes = mem.nodes ∧
      Stores key multi mem' (rows.step key multi (.erase root entry)).2 := by
  have member : entry ∈ rows root := permits
  obtain ⟨front, back, split⟩ := List.append_of_mem member
  have nodup := stores.nodup root
  have holds := stores.holds root
  have sorted := stores.sorted root
  have fresh : entry ∉ front := by
    rw [split] at nodup
    intro inside
    exact (List.nodup_append.mp nodup).2.2 entry inside entry (by simp) rfl
  have erased : (rows root).erase entry = front ++ back := by
    rw [split, List.erase_append_right _ fresh, List.erase_cons_head]
  rw [split] at nodup holds enough sorted
  obtain ⟨mem', erases, holds', cleared, within⟩ := eraseInit_eq holds nodup enough
  refine ⟨mem', ?_, within.nodes, ?_⟩
  · simp only [step, erases, ok_bind, pure_eq_ok, Rows.step]
  · simp only [Rows.step, erased]
    have sub : (front ++ back).Sublist (front ++ entry :: back) :=
      (List.sublist_cons_self entry back).append_left front
    rw [← split] at within
    refine stores.update within (fun _ inside => inside) (fun _ inside => Or.inl inside) ?_ holds'
      (nodup.sublist sub) (sorted.sublist sub) ?_
    · intro rb inside
      rw [split]
      exact sub.subset inside
    · intro rb inside absent
      have isEntry : rb = entry := by
        rw [split] at inside
        simp only [List.mem_append, List.mem_cons] at inside absent
        tauto
      rw [isEntry, cleared]

/-- An operation that is permitted does to the trees in memory what it means for the rows. -/
theorem stores_step {command : Command} (stores : Stores key multi mem rows)
    (permits : Rows.Permits mem.nodes rows command)
    (enough : ∀ root, 2 * Nat.log 2 ((rows root).length + 1) < bound) :
    ∃ mem', step key multi bound command mem = .ok ((rows.step key multi command).1, mem') ∧
      mem'.nodes = mem.nodes ∧ Stores key multi mem' (rows.step key multi command).2 := by
  cases command with
  | insert root entry => exact stores.insert permits (enough root)
  | erase root entry => exact stores.erase permits (enough root)

/-- No row grows by more than one node in a step. -/
theorem length_step (key : U64 → κ) (multi : U64 → Bool) (rows : Rows) (command : Command)
    (root : U64) :
    ((rows.step key multi command).2 root).length ≤ (rows root).length + 1 := by
  cases command with
  | insert other entry =>
      simp only [Rows.step]
      split
      · exact Nat.le_succ _
      · simp only
        by_cases same : root = other
        · subst same
          rw [Function.update_self, (perm_entered key (rows root) entry).length_eq,
            List.length_cons]
        · rw [Function.update_of_ne same]
          exact Nat.le_succ _
  | erase other entry =>
      simp only [Rows.step]
      by_cases same : root = other
      · subst same
        rw [Function.update_self]
        exact (List.erase_sublist.length_le).trans (Nat.le_succ _)
      · rw [Function.update_of_ne same]
        exact Nat.le_succ _

theorem length_run (key : U64 → κ) (multi : U64 → Bool) (rows : Rows) (commands : List Command)
    (root : U64) :
    ((rows.run key multi commands).2 root).length ≤ (rows root).length + commands.length := by
  induction commands generalizing rows with
  | nil => exact Nat.le_refl _
  | cons command commands ih =>
      refine (ih (rows.step key multi command).2).trans ?_
      have grows := length_step key multi rows command root
      rw [List.length_cons]
      omega

/-- A run of permitted operations never fails, and the memory holds the rows at its end. -/
theorem stores_run {commands : List Command} {size : Nat} (stores : Stores key multi mem rows)
    (permits : Rows.PermitsAll key multi mem.nodes rows commands)
    (sizes : ∀ root, (rows root).length + commands.length ≤ size)
    (enough : 2 * Nat.log 2 (size + 1) < bound) :
    ∃ mem', runAll (step key multi bound) commands mem =
        .ok ((rows.run key multi commands).1, mem') ∧
      mem'.nodes = mem.nodes ∧ Stores key multi mem' (rows.run key multi commands).2 := by
  induction commands generalizing mem rows with
  | nil => exact ⟨mem, rfl, rfl, stores⟩
  | cons command commands ih =>
      obtain ⟨now, later⟩ := permits
      have room : ∀ root, 2 * Nat.log 2 ((rows root).length + 1) < bound := by
        intro root
        refine lt_of_le_of_lt (Nat.mul_le_mul_left 2 (Nat.log_mono_right ?_)) enough
        have fits := sizes root
        rw [List.length_cons] at fits
        omega
      obtain ⟨mem₁, steps, nodes₁, stores₁⟩ := stores_step stores now room
      rw [← nodes₁] at later
      obtain ⟨mem', runs, nodes', stores'⟩ := ih stores₁ later (by
        intro root
        have grows := length_step key multi rows command root
        have fits := sizes root
        rw [List.length_cons] at fits
        omega)
      refine ⟨mem', ?_, nodes'.trans nodes₁, stores'⟩
      exact runAll_cons_eq_ok.mpr ⟨_, mem₁, _, steps, runs, rfl⟩

/-- `RB_EMPTY_NODE` tells whether a node is in a tree. -/
theorem Stores.emptyNode {rb : U64} (stores : Stores key multi mem rows)
    (live : mem.nodes.live rb = true) :
    Rb.emptyNode mem rb = .ok true ∧ (∀ root, rb ∉ rows root) ∨
      Rb.emptyNode mem rb = .ok false ∧ ∃ root, rb ∈ rows root := by
  by_cases free : ∀ root, rb ∉ rows root
  · refine Or.inl ⟨?_, free⟩
    rw [Rb.emptyNode, Memory.word_of_live live, stores.cleared rb live free, ok_bind, pure_eq_ok,
      decide_eq_true rfl]
  · obtain ⟨root, member⟩ := not_forall_not.mp free
    refine Or.inr ⟨?_, root, member⟩
    obtain ⟨tree, represents, -, isRow⟩ := stores.holds root
    have nodup := stores.nodup root
    obtain ⟨front, back, split⟩ := List.append_of_mem member
    rw [← isRow] at split nodup
    obtain ⟨path, color, left, right, whole, -, -⟩ := exists_plug_of_toList [] split
    rw [plug] at whole
    rw [← whole] at represents nodup
    obtain ⟨spans, hangs⟩ := (represents_plug _ _).mp represents
    have distinct := (perm_plug _ _).nodup_iff.mp nodup
    refine emptyNode_eq hangs.1 spans.1.live spans.1.word fun inside => ?_
    exact (List.nodup_append.mp distinct).2.2 rb (by simp) rb inside rfl

theorem Stores.walk {root : U64} {fuel : Nat} (stores : Stores key multi mem rows)
    (enough : 2 * Nat.log 2 ((rows root).length + 1) < bound) (long : (rows root).length < fuel) :
    ∃ start, first bound mem root = .ok start ∧ Rb.walk bound mem fuel start = .ok (rows root) := by
  obtain ⟨tree, represents, -, isRow, shallow⟩ := (stores.holds root).depth_le enough
  have nodup := stores.nodup root
  rw [← isRow] at nodup long ⊢
  refine ⟨_, first_eq represents (Nat.le_of_lt shallow), ?_⟩
  exact @walk_eq mem root fuel bound tree [] tree.toList represents nodup (Nat.le_of_lt shallow) rfl
    long

/-- The memory before anything is inserted. -/
structure Fresh (mem : Memory) : Prop where
  roots : ∀ root, mem.root root = 0
  cleared : ∀ rb, mem.nodes.live rb = true → mem.parentColor rb = rb

theorem Fresh.stores (fresh : Fresh mem) : Stores key multi mem fun _ => [] where
  holds root := ⟨nil, ⟨trivial, fresh.roots root⟩, ⟨0, .nil⟩, rfl⟩
  nodup _ := List.nodup_nil
  apart _ _ _ inside := absurd inside (List.not_mem_nil)
  sorted _ := List.Pairwise.nil
  cleared rb live _ := fresh.cleared rb live

end Runs

/-- The memory without a node. -/
def Memory.free (mem : Memory) (rb : U64) : Memory where
  nodes :=
    { live := fun other => mem.nodes.live other && !decide (other = rb)
      null := by rw [mem.nodes.null, Bool.false_and]
      aligned := fun other live => mem.nodes.aligned other (Bool.and_eq_true_iff.mp live).1 }
  parentColor := mem.parentColor
  child := mem.child
  root := mem.root

/-- The loop of `__maps__purge`, which looks for the next node before it takes the current one
out of the tree and puts its map: the nodes it meets, some of which go with the last reference
to their map. -/
def purge (bound : Nat) (frees : U64 → Bool) (root : U64) :
    Nat → U64 → Memory → Except Failure (List U64 × Memory)
  | 0, _, _ => .error .unfinished
  | fuel + 1, pos, mem => do
      if pos = 0 then
        return ([], mem)
      else
        let next ← next bound mem pos
        let mem ← eraseInit bound mem pos root
        let mem := if frees pos then mem.free pos else mem
        let (later, mem) ← purge bound frees root fuel next mem
        return (pos :: later, mem)

/-- Freeing a node that is not in a tree leaves the tree. -/
theorem Spans.free {up rb : U64} (spans : Spans mem up tree) (fresh : rb ∉ tree.toList) :
    Spans (mem.free rb) up tree := by
  induction tree generalizing up with
  | nil => trivial
  | node color left value right ihLeft ihRight =>
      rw [toList_node, List.mem_append, List.mem_cons] at fresh
      refine ⟨⟨?_, spans.1.word, spans.1.near, spans.1.far⟩, ihLeft spans.2.1 ?_,
        ihRight spans.2.2 ?_⟩
      · simp only [Memory.free, spans.1.live, Bool.true_and, Bool.not_eq_true',
          decide_eq_false_iff_not]
        grind
      · grind
      · grind

theorem Holds.free {rb : U64} {row : List U64} (holds : Holds mem root row) (fresh : rb ∉ row) :
    Holds (mem.free rb) root row := by
  obtain ⟨tree, represents, balanced, rfl⟩ := holds
  exact ⟨tree, ⟨represents.1.free fresh, represents.2⟩, balanced, rfl⟩

/-- The fields of the nodes in a region, and what is there, may be different afterwards. -/
structure Leaves (mem mem' : Memory) (root : U64) (region : List U64) : Prop where
  live : ∀ rb, rb ∉ region → mem'.nodes.live rb = mem.nodes.live rb
  roots : ∀ other, other ≠ root → mem'.root other = mem.root other
  same : ∀ rb, rb ∉ region → Same mem mem' rb

/-- Taking a tree apart meets every node once and in order, and leaves an empty root; the nodes
that stay are marked with `RB_CLEAR_NODE`. -/
theorem purge_eq {frees : U64 → Bool} {row : List U64} {fuel : Nat} (holds : Holds mem root row)
    (nodup : row.Nodup) (enough : 2 * Nat.log 2 (row.length + 1) < bound)
    (long : row.length < fuel) :
    ∃ mem', purge bound frees root fuel (row.headD 0) mem = .ok (row, mem') ∧
      mem'.root root = 0 ∧ Leaves mem mem' root row ∧
      ∀ rb ∈ row, mem'.nodes.live rb = !frees rb ∧ mem'.parentColor rb = rb := by
  induction row generalizing mem fuel with
  | nil =>
      cases fuel with
      | zero => cases long
      | succ fuel =>
          obtain ⟨tree, represents, -, isNil⟩ := holds
          refine ⟨mem, rfl, ?_, ⟨fun _ _ => rfl, fun _ _ => rfl, fun rb _ => .refl mem rb⟩,
            fun _ member => absurd member List.not_mem_nil⟩
          cases tree with
          | nil => exact represents.2
          | node => simp at isNil
  | cons pos row ih =>
      cases fuel with
      | zero => cases long
      | succ fuel =>
          obtain ⟨tree, represents, -, isRow, shallow⟩ := holds.depth_le enough
          have notNull : pos ≠ 0 := represents.1.ne_null (by simp [isRow])
          have nexts : next bound mem pos = .ok (row.headD 0) :=
            @next_eq mem root pos bound tree [] row represents (isRow ▸ nodup)
              (Nat.le_of_lt shallow) isRow
          obtain ⟨mem₁, erases, holds₁, cleared₁, within₁⟩ :=
            @eraseInit_eq mem root pos bound [] row holds nodup enough
          obtain ⟨fresh, rest⟩ := List.nodup_cons.mp nodup
          -- the memory in which the loop goes on
          obtain ⟨mem₂, isMem₂⟩ : ∃ mem₂, mem₂ = if frees pos then mem₁.free pos else mem₁ :=
            ⟨_, rfl⟩
          have holds₂ : Holds mem₂ root row := by
            rw [isMem₂]
            split
            · exact holds₁.free fresh
            · exact holds₁
          have fields : mem₂.parentColor = mem₁.parentColor ∧ mem₂.child = mem₁.child ∧
              mem₂.root = mem₁.root := by
            rw [isMem₂]
            split
            · exact ⟨rfl, rfl, rfl⟩
            · exact ⟨rfl, rfl, rfl⟩
          have live₂ : ∀ rb, mem₂.nodes.live rb =
              (mem.nodes.live rb && !(decide (rb = pos) && frees pos)) := by
            intro rb
            rw [isMem₂, ← within₁.nodes]
            split
            · rename_i goes
              simp [Memory.free, goes]
            · rename_i stays
              simp [stays]
          obtain ⟨mem', purges, empty, leaves, marked⟩ := @ih mem₂ fuel holds₂ rest
            (lt_of_le_of_lt (Nat.mul_le_mul_left 2 (Nat.log_mono_right (by simp))) enough)
            (Nat.lt_of_succ_lt_succ long)
          refine ⟨mem', ?_, empty, ⟨?_, ?_, ?_⟩, ?_⟩
          · rw [isMem₂] at purges
            rw [List.headD_cons]
            simp only [purge, notNull, ↓reduceIte, nexts, ok_bind, erases, purges, pure_eq_ok]
          · intro rb outside
            rw [List.mem_cons, not_or] at outside
            rw [leaves.live rb outside.2, live₂, decide_eq_false outside.1]
            simp
          · intro other different
            rw [leaves.roots other different, fields.2.2, within₁.roots other different]
          · intro rb outside
            have first := within₁.same rb outside
            have second := leaves.same rb fun inside => outside (List.mem_cons_of_mem _ inside)
            refine ⟨second.word.trans ?_, fun side => (second.child side).trans ?_⟩
            · rw [fields.1, first.word]
            · rw [fields.2.1, first.child side]
          · intro rb inside
            rcases List.mem_cons.mp inside with rfl | later
            · have live : mem.nodes.live rb = true := represents.1.live (by simp [isRow])
              rw [leaves.live rb fresh, live₂, (leaves.same rb fresh).word, fields.1, cleared₁,
                live]
              simp
            · exact marked rb later

section Purpose

variable {κ : Type*} [LinearOrder κ]

/-- The trees of any number of roots in one memory are ordered dictionaries. Whatever nodes are
inserted and erased, no operation fails or runs longer than twice the logarithm of the number of
operations, an insertion answers with the node that has the key already, and walking from the
first node of a root meets its row, in the order of the keys. -/
theorem run_dictionary (key : U64 → κ) (multi : U64 → Bool) (fresh : Fresh mem)
    (commands : List Command)
    (permits : Rows.PermitsAll key multi mem.nodes (fun _ => []) commands)
    (enough : 2 * Nat.log 2 (commands.length + 1) < bound) :
    ∃ mem', runAll (step key multi bound) commands mem =
        .ok ((Rows.run key multi (fun _ => []) commands).1, mem') ∧
      ∀ root, let row := (Rows.run key multi (fun _ => []) commands).2 root
        (row.Pairwise fun first second =>
          if multi root then key first ≤ key second else key first < key second) ∧
        ∀ fuel, row.length < fuel → ∃ start, first bound mem' root = .ok start ∧
          walk bound mem' fuel start = .ok row := by
  obtain ⟨mem', runs, -, stores⟩ := stores_run fresh.stores permits
    (fun _ => Nat.le_of_eq (Nat.zero_add _)) enough
  refine ⟨mem', runs, fun root => ⟨stores.sorted root, fun fuel long => ?_⟩⟩
  refine stores.walk (lt_of_le_of_lt (Nat.mul_le_mul_left 2 (Nat.log_mono_right ?_)) enough) long
  have short := length_run key multi (fun _ => []) commands root
  simp only [List.length_nil, Nat.zero_add] at short
  exact Nat.succ_le_succ short

theorem fresh_blank (nodes : Nodes) : Fresh (Memory.blank nodes) := ⟨fun _ => rfl, fun _ _ => rfl⟩

theorem proper_pair : ∀ rb ∈ ([8, 16] : List U64), rb ≠ 0 ∧ rb &&& 3 = 0 := by simp

/-- Two nodes that are inserted at a root, and one that moves from there to another root. -/
def moves : List Command := [.insert 0 16, .insert 0 8, .erase 0 16, .insert 4 16]

theorem permits_moves : Rows.PermitsAll BitVec.toNat (fun _ => false)
    (Memory.blank (.at [8, 16] proper_pair)).nodes (fun _ => []) moves := by
  refine ⟨⟨rfl, by simp⟩, ⟨rfl, ?_⟩, ?_, ⟨rfl, ?_⟩, trivial⟩
  · intro root
    simp only [Rows.step, Rows.found, Rows.entered]
    by_cases isRoot : root = 0#64 <;> simp [isRoot]
  · simp [Rows.Permits, Rows.step, Rows.found, Rows.entered]
  · intro root
    simp only [Rows.step, Rows.found, Rows.entered]
    by_cases isRoot : root = 0#64 <;> simp [isRoot]

theorem run_dictionary_moves :
    ∃ mem', runAll (step BitVec.toNat (fun _ => false) 5) moves
        (Memory.blank (.at [8, 16] proper_pair)) = .ok ([none, none, none, none], mem') ∧
      ∃ start, first 5 mem' 4 = .ok start ∧ walk 5 mem' 2 start = .ok [16] := by
  obtain ⟨mem', runs, rows⟩ := run_dictionary BitVec.toNat (fun _ => false) (fresh_blank _) moves
    permits_moves (show 2 * Nat.log 2 5 < 5 by decide +kernel)
  have outputs : (Rows.run BitVec.toNat (fun _ => false) (fun _ => []) moves).1 =
      [none, none, none, none] := by
    simp [moves, Rows.run, Rows.step, Rows.found, Rows.entered]
  have row : (Rows.run BitVec.toNat (fun _ => false) (fun _ => []) moves).2 4 = [16] := by
    simp [moves, Rows.run, Rows.step, Rows.found, Rows.entered]
  refine ⟨mem', outputs ▸ runs, ?_⟩
  have there := (rows 4).2 2
  rw [row] at there
  exact there (by simp)

/-- After every run, `RB_EMPTY_NODE` holds of exactly the nodes that are in no tree. -/
theorem run_emptyNode (key : U64 → κ) (multi : U64 → Bool) (fresh : Fresh mem)
    (commands : List Command)
    (permits : Rows.PermitsAll key multi mem.nodes (fun _ => []) commands)
    (enough : 2 * Nat.log 2 (commands.length + 1) < bound) :
    ∃ outputs mem', runAll (step key multi bound) commands mem = .ok (outputs, mem') ∧
      ∀ rb, mem.nodes.live rb = true →
        (emptyNode mem' rb = .ok true ↔
          ∀ root, rb ∉ (Rows.run key multi (fun _ => []) commands).2 root) ∧
        (emptyNode mem' rb = .ok false ↔
          ∃ root, rb ∈ (Rows.run key multi (fun _ => []) commands).2 root) := by
  obtain ⟨mem', runs, nodes, stores⟩ := stores_run fresh.stores permits
    (fun _ => Nat.le_of_eq (Nat.zero_add _)) enough
  refine ⟨_, mem', runs, fun rb live => ?_⟩
  rcases stores.emptyNode (nodes ▸ live) with ⟨isEmpty, free⟩ | ⟨isUsed, root, member⟩
  · rw [isEmpty]
    refine ⟨⟨fun _ => free, fun _ => rfl⟩, ?_, ?_⟩
    · intro different
      cases different
    · intro used
      exact absurd used (not_exists.mpr free)
  · rw [isUsed]
    refine ⟨⟨?_, fun free => absurd member (free root)⟩, fun _ => ⟨root, member⟩, fun _ => rfl⟩
    intro different
    cases different

theorem run_emptyNode_moves :
    ∃ outputs mem', runAll (step BitVec.toNat (fun _ => false) 5) moves
        (Memory.blank (.at [8, 16] proper_pair)) = .ok (outputs, mem') ∧
      emptyNode mem' 16 = .ok false := by
  obtain ⟨outputs, mem', runs, marks⟩ := run_emptyNode BitVec.toNat (fun _ => false)
    (fresh_blank _) moves permits_moves (show 2 * Nat.log 2 5 < 5 by decide +kernel)
  refine ⟨outputs, mem', runs, (marks 16 rfl).2.mpr ⟨4, ?_⟩⟩
  simp [moves, Rows.run, Rows.step, Rows.found, Rows.entered]

end Purpose

/-- `__maps__purge`, which looks for the next node of a balanced tree before it erases the
current one, meets every node once and in order, whether or not the maps go at once, and leaves
an empty root, the nodes that stay marked with `RB_CLEAR_NODE` and everything else as it was. -/
theorem purge_represents {frees : U64 → Bool} {fuel : Nat} (balanced : tree.Balanced)
    (represents : Represents mem root tree) (nodup : tree.toList.Nodup)
    (enough : 2 * Nat.log 2 (tree.toList.length + 1) < bound) (long : tree.toList.length < fuel) :
    ∃ start mem', first bound mem root = .ok start ∧
      purge bound frees root fuel start mem = .ok (tree.toList, mem') ∧ mem'.root root = 0 ∧
      Leaves mem mem' root tree.toList ∧
      ∀ rb ∈ tree.toList, mem'.nodes.live rb = !frees rb ∧ mem'.parentColor rb = rb := by
  have shallow := Nat.le_of_lt (lt_of_le_of_lt balanced.depth_le enough)
  obtain ⟨mem', purges⟩ := purge_eq ⟨tree, represents, balanced, rfl⟩ nodup enough long
  exact ⟨_, mem', first_eq represents shallow, purges⟩

/-- Two of the four nodes go with their last reference, the others stay. -/
theorem purge_represents_four :
    ∃ start mem', first 5 four 0 = .ok start ∧
      purge 5 (fun rb => rb = 16 ∨ rb = 32) 0 5 start four = .ok ([8, 16, 24, 32], mem') ∧
      mem'.root 0 = 0 ∧ Leaves four mem' 0 [8, 16, 24, 32] ∧
      (∀ rb ∈ ([16, 32] : List U64), mem'.nodes.live rb = false) ∧
      ∀ rb ∈ ([8, 24] : List U64), mem'.nodes.live rb = true ∧ mem'.parentColor rb = rb := by
  obtain ⟨start, mem', starts, purges, empty, leaves, marked⟩ := @purge_represents four 0 fourTree 5
    (fun rb => rb = 16 ∨ rb = 32) 5 balanced_four represents_four nodup_four
    (show 2 * Nat.log 2 5 < 5 by decide +kernel) (by decide)
  refine ⟨start, mem', starts, purges, empty, leaves, ?_, ?_⟩
  · intro rb member
    rcases List.mem_pair.mp member with rfl | rfl
    · exact (marked 16 (by decide)).1
    · exact (marked 32 (by decide)).1
  · intro rb member
    rcases List.mem_pair.mp member with rfl | rfl
    · exact marked 8 (by decide)
    · exact marked 24 (by decide)

end DwBpf.Rb
