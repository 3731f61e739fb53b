import Mathlib.Data.List.Nodup
import Mathlib.Logic.Function.Basic

/-! # Circular lists of nodes that carry their links

A list is threaded through its nodes and closed by its head: every node has a link to
the next one and a link to the one before. `DwBpf.Links.Ring` says which nodes are in
the list of a head. Adding a node at the tail and deleting one keep the other nodes in
their order (`DwBpf.Links.Ring.addTail`, `DwBpf.Links.Ring.delInit`), and a deleted node
is linked to itself.
-/

namespace DwBpf

structure Links (ν : Type*) where
  next : ν → ν
  prev : ν → ν

namespace Links

variable {ν : Type*}

/-- The nodes lead from one node to another, forward by `next` and back by `prev`. -/
def Path (links : Links ν) : ν → List ν → ν → Prop
  | first, [], last => links.next first = last ∧ links.prev last = first
  | first, node :: nodes, last =>
      links.next first = node ∧ links.prev node = first ∧ links.Path node nodes last

/-- The list of the head has these nodes. -/
structure Ring (links : Links ν) (head : ν) (nodes : List ν) : Prop where
  path : links.Path head nodes head
  nodup : (head :: nodes).Nodup

variable {links links' : Links ν} {first last head node : ν} {nodes rest : List ν}

theorem path_append :
    links.Path first (nodes ++ node :: rest) last ↔
      links.Path first nodes node ∧ links.Path node rest last := by
  induction nodes generalizing first with
  | nil => exact and_assoc.symm
  | cons other nodes ih =>
      change _ ∧ _ ∧ links.Path other (nodes ++ node :: rest) last ↔
        (_ ∧ _ ∧ links.Path other nodes node) ∧ _
      rw [ih, and_assoc, and_assoc]

/-- The node before the last one is on the path, or is its start. -/
theorem Path.prev_mem (path : links.Path first nodes last) : links.prev last ∈ first :: nodes := by
  induction nodes generalizing first with
  | nil =>
      rw [path.2]
      exact List.mem_singleton_self first
  | cons other nodes ih => exact List.mem_cons_of_mem first (ih path.2.2)

theorem Path.next_mem (path : links.Path first nodes last) :
    links.next first ∈ nodes ∨ links.next first = last := by
  cases nodes with
  | nil => exact .inr path.1
  | cons node nodes => exact .inl (path.1 ▸ List.mem_cons_self)

/-- A path does not depend on links of other nodes. -/
theorem Path.congr (path : links.Path first nodes last)
    (next : ∀ node ∈ first :: nodes, links'.next node = links.next node)
    (prev : ∀ node, node ∈ nodes ∨ node = last → links'.prev node = links.prev node) :
    links'.Path first nodes last := by
  induction nodes generalizing first with
  | nil =>
      refine ⟨?_, ?_⟩
      · rw [next first (List.mem_singleton_self first)]
        exact path.1
      · rw [prev last (.inr rfl)]
        exact path.2
  | cons other nodes ih =>
      refine ⟨?_, ?_, ?_⟩
      · rw [next first List.mem_cons_self]
        exact path.1
      · rw [prev other (.inl List.mem_cons_self)]
        exact path.2.1
      · apply ih path.2.2
        · intro node member
          exact next node (List.mem_cons_of_mem first member)
        · intro node member
          exact prev node (member.imp_left (List.mem_cons_of_mem other))

theorem Ring.congr (ring : links.Ring head nodes)
    (next : ∀ node ∈ head :: nodes, links'.next node = links.next node)
    (prev : ∀ node ∈ head :: nodes, links'.prev node = links.prev node) :
    links'.Ring head nodes := by
  refine ⟨ring.path.congr next ?_, ring.nodup⟩
  rintro node (member | rfl)
  · exact prev node (List.mem_cons_of_mem head member)
  · exact prev node List.mem_cons_self

/-- Every node is linked to itself. -/
def initial : Links ν := ⟨id, id⟩

theorem ring_initial (head : ν) : (initial : Links ν).Ring head [] :=
  ⟨⟨rfl, rfl⟩, List.nodup_singleton head⟩

section Update

variable [DecidableEq ν]

/-- Link a node between two others. -/
def insertBetween (links : Links ν) (new before after : ν) : Links ν where
  next := Function.update (Function.update links.next new after) before new
  prev := Function.update (Function.update links.prev after new) new before

/-- Link a node at the end of the list of a head. -/
def addTail (links : Links ν) (new head : ν) : Links ν :=
  links.insertBetween new (links.prev head) head

/-- Take a node out of its list, and link it to itself. -/
def delInit (links : Links ν) (entry : ν) : Links ν where
  next := Function.update (Function.update links.next (links.prev entry) (links.next entry))
    entry entry
  prev := Function.update (Function.update links.prev (links.next entry) (links.prev entry))
    entry entry

variable {new entry : ν}

/-- The induction is on the path up to where the node is linked. -/
theorem Path.insertBetween (path : links.Path first nodes last) (nodup : (first :: nodes).Nodup)
    (ends : last ∉ nodes) (fresh : new ∉ first :: nodes) (other : new ≠ last) :
    (links.insertBetween new (links.prev last) last).Path first (nodes ++ [new]) last := by
  induction nodes generalizing first with
  | nil =>
      have different : new ≠ first := fun same => fresh (same ▸ List.mem_singleton_self first)
      have before : links.prev last = first := path.2
      rw [before]
      refine ⟨Function.update_self .., Function.update_self .., ?_, ?_⟩
      · exact (Function.update_of_ne different ..).trans (Function.update_self ..)
      · exact (Function.update_of_ne other.symm ..).trans (Function.update_self ..)
  | cons node nodes ih =>
      obtain ⟨absent, nodup⟩ := List.nodup_cons.mp nodup
      have before := path.2.2.prev_mem
      refine ⟨?_, ?_, ?_⟩
      · have notBefore : first ≠ links.prev last := fun same => absent (same ▸ before)
        have notNew : first ≠ new := fun same => fresh (same ▸ List.mem_cons_self)
        exact (Function.update_of_ne notBefore ..).trans
          ((Function.update_of_ne notNew ..).trans path.1)
      · have notNew : node ≠ new := fun same =>
          fresh (List.mem_cons_of_mem first (same ▸ List.mem_cons_self))
        have notLast : node ≠ last := fun same => ends (same ▸ List.mem_cons_self)
        exact (Function.update_of_ne notNew ..).trans
          ((Function.update_of_ne notLast ..).trans path.2.1)
      · exact ih path.2.2 nodup (fun member => ends (List.mem_cons_of_mem node member))
          fun member => fresh (List.mem_cons_of_mem first member)

theorem Ring.addTail (ring : links.Ring head nodes) (fresh : new ∉ head :: nodes) :
    (links.addTail new head).Ring head (nodes ++ [new]) where
  path := ring.path.insertBetween ring.nodup (List.nodup_cons.mp ring.nodup).1 fresh
    fun same => fresh (same ▸ List.mem_cons_self)
  nodup := by
    have apart : (head :: nodes).Disjoint [new] := by
      intro node member single
      rw [List.mem_singleton.mp single] at member
      exact fresh member
    exact ring.nodup.append (List.nodup_singleton new) apart

variable {head' : ν} {nodes' : List ν}

/-- The lists of other heads stay. -/
theorem Ring.addTail_other (ring : links.Ring head nodes) (other : links.Ring head' nodes')
    (apart : ∀ node ∈ head' :: nodes', node ≠ new ∧ node ∉ head :: nodes) :
    (links.addTail new head).Ring head' nodes' := by
  apply other.congr
  · intro node member
    obtain ⟨notNew, outside⟩ := apart node member
    have notBefore : node ≠ links.prev head := by
      rintro rfl
      exact outside ring.path.prev_mem
    exact (Function.update_of_ne notBefore ..).trans (Function.update_of_ne notNew ..)
  · intro node member
    obtain ⟨notNew, outside⟩ := apart node member
    have notHead : node ≠ head := by
      rintro rfl
      exact outside List.mem_cons_self
    exact (Function.update_of_ne notNew ..).trans (Function.update_of_ne notHead ..)

theorem next_delInit (links : Links ν) (entry : ν) : (links.delInit entry).next entry = entry :=
  Function.update_self ..

theorem next_delInit_before (different : links.prev entry ≠ entry) :
    (links.delInit entry).next (links.prev entry) = links.next entry :=
  (Function.update_of_ne different ..).trans (Function.update_self ..)

theorem prev_delInit_after (different : links.next entry ≠ entry) :
    (links.delInit entry).prev (links.next entry) = links.prev entry :=
  (Function.update_of_ne different ..).trans (Function.update_self ..)

theorem next_delInit_of_ne (notEntry : node ≠ entry) (notBefore : node ≠ links.prev entry) :
    (links.delInit entry).next node = links.next node :=
  (Function.update_of_ne notEntry ..).trans (Function.update_of_ne notBefore ..)

theorem prev_delInit_of_ne (notEntry : node ≠ entry) (notAfter : node ≠ links.next entry) :
    (links.delInit entry).prev node = links.prev node :=
  (Function.update_of_ne notEntry ..).trans (Function.update_of_ne notAfter ..)

/-- Without the node, the one before it leads to those behind it. -/
theorem Path.delInit_first (isFirst : links.prev entry = first)
    (after : links.Path entry rest last) (nodup : (first :: rest).Nodup) (ends : last ∉ rest)
    (absent : entry ∉ first :: rest) (other : entry ≠ last) :
    (links.delInit entry).Path first rest last := by
  have notFirst : links.prev entry ≠ entry := by
    rw [isFirst]
    exact fun same => absent (same ▸ List.mem_cons_self)
  have next : (links.delInit entry).next first = links.next entry :=
    isFirst ▸ next_delInit_before notFirst
  cases rest with
  | nil =>
      have isLast : links.next entry = last := after.1
      have prev := prev_delInit_after (by rw [isLast]; exact other.symm)
      rw [isLast, isFirst] at prev
      exact ⟨next.trans isLast, prev⟩
  | cons node rest =>
      obtain ⟨firstAbsent, nodup⟩ := List.nodup_cons.mp nodup
      have isNode : links.next entry = node := after.1
      have apart : ∀ query ∈ node :: rest, query ≠ entry := fun query member same =>
        absent (List.mem_cons_of_mem first (same ▸ member))
      have prev := prev_delInit_after (by rw [isNode]; exact apart node List.mem_cons_self)
      rw [isNode, isFirst] at prev
      refine ⟨next.trans isNode, prev, after.2.2.congr ?_ ?_⟩
      · intro query member
        apply next_delInit_of_ne (apart query member)
        rw [isFirst]
        rintro rfl
        exact firstAbsent member
      · intro query member
        have notEntry : query ≠ entry := by
          rcases member with inside | rfl
          · exact apart query (List.mem_cons_of_mem node inside)
          · exact other.symm
        apply prev_delInit_of_ne notEntry
        rw [isNode]
        rintro rfl
        rcases member with inside | rfl
        · exact (List.nodup_cons.mp nodup).1 inside
        · exact ends List.mem_cons_self

/-- The induction is on the path up to the node that is taken out. -/
theorem Path.delInit (before : links.Path first nodes entry) (after : links.Path entry rest last)
    (nodup : (first :: (nodes ++ rest)).Nodup) (ends : last ∉ nodes ++ rest)
    (absent : entry ∉ first :: (nodes ++ rest)) (other : entry ≠ last) :
    (links.delInit entry).Path first (nodes ++ rest) last := by
  induction nodes generalizing first with
  | nil => exact Path.delInit_first before.2 after nodup ends absent other
  | cons node nodes ih =>
      obtain ⟨firstAbsent, nodup⟩ := List.nodup_cons.mp nodup
      have inside : ∀ query ∈ node :: nodes, query ∈ node :: (nodes ++ rest) :=
        fun query member => List.mem_append_left rest member
      refine ⟨?_, ?_, ?_⟩
      · have notEntry : first ≠ entry := fun same => absent (same ▸ List.mem_cons_self)
        have notBefore : first ≠ links.prev entry := by
          intro same
          have member := inside _ before.2.2.prev_mem
          rw [← same] at member
          exact firstAbsent member
        exact (next_delInit_of_ne notEntry notBefore).trans before.1
      · have notEntry : node ≠ entry := fun same =>
          absent (List.mem_cons_of_mem first (same ▸ List.mem_cons_self))
        have notAfter : node ≠ links.next entry := by
          intro same
          rcases after.next_mem with member | isLast
          · rw [← same] at member
            exact (List.nodup_cons.mp nodup).1 (List.mem_append_right nodes member)
          · rw [← same] at isLast
            exact ends (isLast ▸ List.mem_cons_self)
        exact (prev_delInit_of_ne notEntry notAfter).trans before.2.1
      · exact ih before.2.2 nodup (fun member => ends (List.mem_cons_of_mem node member))
          fun member => absent (List.mem_cons_of_mem first member)

/-- Taking an entry out of a ring leaves a ring of the others. -/
theorem Ring.delInit (ring : links.Ring head nodes) (member : entry ∈ nodes) :
    (links.delInit entry).Ring head (nodes.erase entry) := by
  have nodup := ring.nodup
  obtain ⟨before, after, rfl⟩ := List.append_of_mem member
  obtain ⟨headAbsent, inner⟩ := List.nodup_cons.mp nodup
  have apart := List.nodup_middle.mp inner
  obtain ⟨entryAbsent, rest⟩ := List.nodup_cons.mp apart
  have erased : (before ++ entry :: after).erase entry = before ++ after := by
    rw [List.erase_append_right _ fun inside => entryAbsent (List.mem_append_left after inside),
      List.erase_cons_head]
  have headApart : head ∉ before ++ after := by
    intro inside
    apply headAbsent
    rcases List.mem_append.mp inside with first | second
    · exact List.mem_append_left _ first
    · exact List.mem_append_right _ (List.mem_cons_of_mem entry second)
  have notHead : entry ≠ head := by
    rintro rfl
    exact headAbsent member
  rw [erased]
  refine ⟨?_, List.nodup_cons.mpr ⟨headApart, rest⟩⟩
  obtain ⟨first, second⟩ := path_append.mp ring.path
  apply first.delInit second (List.nodup_cons.mpr ⟨headApart, rest⟩) headApart
  · rintro (_ | inside)
    · exact notHead rfl
    · exact entryAbsent ‹_›
  · exact notHead

/-- It leaves every ring that has no node in common with it. -/
theorem Ring.delInit_other (ring : links.Ring head nodes) (member : entry ∈ nodes)
    (other : links.Ring head' nodes') (apart : ∀ node ∈ head' :: nodes', node ∉ head :: nodes) :
    (links.delInit entry).Ring head' nodes' := by
  obtain ⟨before, after, rfl⟩ := List.append_of_mem member
  obtain ⟨first, second⟩ := path_append.mp ring.path
  have notEntry : ∀ node ∈ head' :: nodes', node ≠ entry := by
    rintro node inside rfl
    exact apart node inside (List.mem_cons_of_mem head member)
  apply other.congr
  · intro node inside
    have notBefore : node ≠ links.prev entry := by
      rintro rfl
      exact apart _ inside (List.mem_append_left _ first.prev_mem)
    exact next_delInit_of_ne (notEntry node inside) notBefore
  · intro node inside
    have notAfter : node ≠ links.next entry := by
      rintro rfl
      rcases second.next_mem with within | isHead
      · exact apart _ inside
          (List.mem_append_right (head :: before) (List.mem_cons_of_mem _ within))
      · exact apart _ inside (isHead ▸ List.mem_cons_self)
    exact prev_delInit_of_ne (notEntry node inside) notAfter

end Update

end Links

end DwBpf
