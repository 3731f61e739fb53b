import DwBpf.Event.Balance
import DwBpf.Rbtree.Insert

/-! # The trees of the library in memory

The model of the library keeps its trees as values, the source keeps them in the words
of nodes inside the objects. Wherever the nodes of a balanced tree are in memory, the
descents of the source stop at the node that the model's descent stops at, and linking a
new node leaves the words of the tree that the model goes on with
(`DwBpf.Rb.refines_of_balanced`). The trees of every state that a run of calls reaches are
balanced, so this holds of all of them (`DwBpf.Rb.runs_refine`).
-/

namespace DwBpf.Rb

open DwBpf.Tree

/-- The memory has the tree of the root, with the node of every object at its place. -/
structure Embeds {α : Type} (mem : Memory) (root : U64) (place : α → U64) (tree : Tree α) :
    Prop where
  represents : Represents mem root (tree.map place)
  nodup : (tree.toList.map place).Nodup

/-- A descent in memory, with comparisons that agree with those of the objects, and the
insertion at its end do what `locate` and `link` say. -/
structure Descends {α : Type} (mem : Memory) (root : U64) (place : α → U64) (tree : Tree α)
    (steer : α → Ordering) (steer' : U64 → Ordering) (bound : Nat) : Prop where
  stops : ∀ found, tree.locate steer [] = .inl found →
    descend mem steer' bound 0 (.root root) = .ok (.inl (place found))
  falls : ∀ leaf, tree.locate steer [] = .inr leaf →
    ∃ stop, descend mem steer' bound 0 (.root root) = .ok (.inr stop)
  links : ∀ leaf value, tree.locate steer [] = .inr leaf →
    mem.nodes.live (place value) = true → place value ∉ tree.toList.map place →
    ∃ mem', insert bound steer' mem (place value) root = .ok (none, mem') ∧
      Embeds mem' root place (link leaf value) ∧
      Within mem mem' root (place value :: tree.toList.map place)

/-- The source descends in a tree of the model, wherever its nodes are. -/
def Refines {α : Type} (tree : Tree α) : Prop :=
  ∀ mem root (place : α → U64) steer steer' bound, Embeds mem root place tree →
    (∀ value ∈ tree.toList, steer' (place value) = steer value) →
    2 * Nat.log 2 (tree.toList.length + 1) < bound →
    Descends mem root place tree steer steer' bound

section Refines

variable {α : Type} {tree : Tree α}

theorem refines_of_balanced (balanced : tree.Balanced) : Refines tree := by
  intro mem root place steer steer' bound embeds same enough
  have located : (tree.map place).locate steer' [] =
      (tree.locate steer []).map place (List.map (mapFrame place)) := by
    have mapped := @locate_map _ tree _ place steer' steer [] same
    exact mapped
  have balanced' : (tree.map place).Balanced := balanced.map
  have short : (tree.map place).depth < bound := by
    have depth := balanced'.depth_le
    rw [toList_map, List.length_map] at depth
    omega
  have descends : descend mem steer' bound (above 0 []) (linkOf root []) =
      .ok (((tree.map place).locate steer' []).map id fun leaf =>
        (above 0 leaf, linkOf root leaf)) :=
    descend_eq embeds.represents.1 ⟨trivial, embeds.represents.2⟩ short
  rw [above, linkOf, located] at descends
  refine ⟨?_, ?_, ?_⟩
  · intro found stops
    rw [stops] at descends
    exact descends
  · intro leaf falls
    rw [falls] at descends
    exact ⟨_, descends⟩
  · intro leaf value falls live fresh
    have inserted := insert_eq steer' balanced' embeds.represents
      (by rw [toList_map]; exact embeds.nodup) live (by rw [toList_map]; exact fresh) short
    rw [located, falls] at inserted
    obtain ⟨mem', inserts, represents, within⟩ := inserted
    refine ⟨mem', inserts, ⟨?_, ?_⟩, ?_⟩
    · rw [link_map]
      exact represents
    · rw [((toList_link_of_locate value falls).map place).nodup_iff, List.map_cons,
        List.nodup_cons]
      exact ⟨fresh, embeds.nodup⟩
    · rw [toList_map] at within
      exact within

end Refines

/-- In every state that a run of calls reaches, the trees of the buckets, of the maps, of
the dsos and of their chunks are what the source searches and links in memory, wherever
their nodes are: it stops at the node that the model's descent stops at, and a new node at
the end of the descent leaves the tree that the model goes on with. -/
theorem runs_refine {calls : List Call} {replies : List Reply} {machine : Machine}
    (ran : runAll Machine.step calls Machine.new = .ok (replies, machine)) :
    (∀ index, Refines (machine.table index).entries) ∧
      (∀ maps object, machine.store.maps.get? maps = some object → Refines object.entries) ∧
      Refines machine.store.dsosRoot ∧
      ∀ ref dso, machine.store.dsos.get? ref = some dso → Refines dso.data.cache := by
  obtain ⟨buckets, balanced⟩ := Machine.balanced_of_run ran
  refine ⟨fun index => refines_of_balanced (buckets index), ?_,
    refines_of_balanced balanced.dsos, ?_⟩
  · intro maps object stored
    exact refines_of_balanced (balanced.maps maps object stored)
  · intro ref dso live
    exact refines_of_balanced (balanced.chunks ref dso live)

/-- Where the nodes of five threads are. -/
def placeOf (ref : Ref Thread) : U64 :=
  match ref.addr with
  | 0 => 24
  | 1 => 16
  | 2 => 32
  | 3 => 8
  | _ => 12

/-- The threads of a bucket. -/
def threadsTree : Tree (Ref Thread) :=
  node .black (node .black (node .red nil ⟨3⟩ nil) ⟨1⟩ nil) ⟨0⟩ (node .black nil ⟨2⟩ nil)

/-- The leaders of four processes are in one bucket, and the node of a fifth, which comes
between two of them, is linked and rotated up. -/
theorem runs_refine_four :
    ∃ replies machine, runAll Machine.step
        [.sample 769 769, .sample 513 513, .sample 1025 1025, .sample 1 1] Machine.new =
        .ok (replies, machine) ∧
      (machine.table (Machine.bucket 257)).entries = threadsTree ∧
      ∃ mem', insert 5 (fun rb => compare 12 rb.toNat) four 12 0 = .ok (none, mem') ∧
        Represents mem' 0 (node .black (node .black (node .red nil 8 nil) 12 (node .red nil 16 nil))
          24 (node .black nil 32 nil)) := by
  have passes : (runAll Machine.step
      [.sample 769 769, .sample 513 513, .sample 1025 1025, .sample 1 1]
      Machine.new).toOption.any (fun result =>
        decide ((result.2.table (Machine.bucket 257)).entries = threadsTree ∧
          ∀ ref ∈ threadsTree.toList,
            compare 12 (placeOf ref).toNat = Machine.steer result.2.store 257 ref)) = true := by
    decide +kernel
  obtain ⟨⟨replies, machine⟩, ran, passed⟩ := exists_of_any passes
  obtain ⟨entries, same⟩ := of_decide_eq_true passed
  have refines := (runs_refine ran).1 (Machine.bucket 257)
  rw [entries] at refines
  have descends := refines four 0 placeOf (Machine.steer machine.store 257)
    (fun rb => compare 12 rb.toNat) 5 ⟨represents_four, nodup_four⟩ same
    (show 2 * Nat.log 2 5 < 5 by decide +kernel)
  have falls : threadsTree.locate (Machine.steer machine.store 257) [] =
      .inr [⟨.right, .red, ⟨3⟩, nil⟩, ⟨.left, .black, ⟨1⟩, nil⟩,
        ⟨.left, .black, ⟨0⟩, node .black nil ⟨2⟩ nil⟩] := by
    simp only [threadsTree, locate, ← same ⟨0⟩ (by decide), ← same ⟨1⟩ (by decide),
      ← same ⟨3⟩ (by decide)]
    rfl
  obtain ⟨mem', inserts, embeds', -⟩ := descends.links _ ⟨4⟩ falls rfl (by decide)
  exact ⟨replies, machine, ran, entries, mem', inserts, embeds'.represents⟩

end DwBpf.Rb
