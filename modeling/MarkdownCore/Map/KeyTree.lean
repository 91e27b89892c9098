import MarkdownCore.Library.Bisect
import MarkdownCore.Order.Labels

/-!
# The ordered key index

A B+ tree of keyed entries whose inner nodes count the entries below each child. The leaves are in
storage, linked in key order; a pointer to one is its place there. A node's type is its level's:
the levels of the tree say how many inner nodes are above each leaf. A removal lets no node go, so
a leaf may hold no entry. Storage is a predicate on the allocations of a call, and a read outside a
node gives `none`.
-/

namespace MarkdownCore.KeyTree

open Bisect (bisect)
open MarkdownCore.Order (LabelEntry keyTieOrder labelBefore)

/-- `markdown_core_key_entry`: its pointer is NULL or a value's. -/
abbrev KeyEntry (V : Type) := LabelEntry (Option V)

variable {V : Type}

/-- `markdown_core_key_before`. -/
def keyBefore (a b : KeyEntry V) : Bool := labelBefore a b

/-- `markdown_core_key_same`. -/
def keySame (a b : KeyEntry V) : Bool := a.head == b.head && keyTieOrder a.key b.key == 0

/-- `KEY_TREE_FANOUT`. -/
def fanout : ℕ := 16

def half : ℕ := (fanout + 1) / 2

/-- `markdown_core_key_tree_leaf`. Its count is the number of its entries. -/
structure Leaf (V : Type) where
  entries : List (KeyEntry V)
  next : Option ℕ

/-- One place of `S_tree_inner`: a child, the entries below it and the first key below it. -/
structure Slot (V α : Type) where
  child : α
  size : ℕ
  key : KeyEntry V

/-- A node so many levels above the leaves: a leaf, or the places of an inner node, whose count is
the number of them. -/
def Node (V : Type) : ℕ → Type
  | 0 => ℕ
  | levels + 1 => List (Slot V (Node V levels))

/-- The leaf a node without levels is. -/
def Node.id (node : Node V 0) : ℕ := node

/-- The places of a node with levels. -/
def Node.slots {levels : ℕ} (node : Node V (levels + 1)) : List (Slot V (Node V levels)) := node

/-- `markdown_core_key_tree`, with the storage its leaves are in. -/
structure Tree (V : Type) where
  levels : ℕ
  root : Option (Node V levels)
  count : ℕ
  leaves : List (Leaf V)

/-- A tree of no entries, all zero. -/
def Tree.empty : Tree V := ⟨0, none, 0, []⟩

/-! ### Searches -/

/-- `S_tree_child`. -/
def treeChild {α : Type} (inner : List (Slot V α)) (key : KeyEntry V) : ℕ :=
  bisect (fun middle => inner[middle]?.any fun slot => !keyBefore key slot.key) inner.length 1
    inner.length - 1

/-- `S_tree_place`. -/
def treePlace (entries : List (KeyEntry V)) (key : KeyEntry V) : ℕ :=
  bisect (fun middle => entries[middle]?.any fun entry => keyBefore entry key) entries.length 0
    entries.length

/-- `S_tree_size`. -/
def treeSize (leaves : List (Leaf V)) : (levels : ℕ) → Node V levels → Option ℕ
  | 0, node => leaves[node.id]?.map fun leaf => leaf.entries.length
  | _ + 1, inner => some (inner.slots.map Slot.size).sum

/-- The loop from the root to the leaf of a key's place, with the entries below the children
passed over. -/
def descend (key : KeyEntry V) : (levels : ℕ) → Node V levels → ℕ → Option (ℕ × ℕ)
  | 0, node, before => some (node.id, before)
  | levels + 1, inner, before =>
    let child := treeChild inner.slots key
    inner.slots[child]?.bind fun slot =>
      descend key levels slot.child (before + ((inner.slots.take child).map Slot.size).sum)

/-- `markdown_core_key_tree_find`: where the key's entry is, if there is one, and the key's rank. -/
def Tree.find (tree : Tree V) (key : KeyEntry V) : Option (Option (ℕ × ℕ) × ℕ) :=
  match tree.root with
  | none => some (none, 0)
  | some root =>
    (descend key tree.levels root 0).bind fun found =>
      tree.leaves[found.1]?.map fun leaf =>
        let place := treePlace leaf.entries key
        (if leaf.entries[place]?.any fun entry => keySame entry key then some (found.1, place)
          else none, found.2 + place)

/-- The entry at a place. -/
def Tree.entryAt (tree : Tree V) (found : ℕ × ℕ) : Option (KeyEntry V) :=
  tree.leaves[found.1]?.bind fun leaf => leaf.entries[found.2]?

/-- The loop of `markdown_core_key_tree_at` over a node's children. -/
def childAt {α : Type} : List (Slot V α) → ℕ → Option (α × ℕ)
  | [], _ => none
  | slot :: slots, rank =>
    if slot.size ≤ rank then childAt slots (rank - slot.size) else some (slot.child, rank)

/-- The loop of `markdown_core_key_tree_at` over the levels. -/
def placeAt : (levels : ℕ) → Node V levels → ℕ → Option (ℕ × ℕ)
  | 0, node, rank => some (node.id, rank)
  | levels + 1, inner, rank =>
    (childAt inner.slots rank).bind fun child => placeAt levels child.1 child.2

/-- `markdown_core_key_tree_at`. -/
def Tree.at' (tree : Tree V) (rank : ℕ) : Option (KeyEntry V) :=
  tree.root.bind fun root => (placeAt tree.levels root rank).bind tree.entryAt

/-! ### The walk -/

/-- `markdown_core_key_tree_cursor`. -/
structure Cursor where
  leaf : Option ℕ
  index : ℕ

/-- `markdown_core_key_tree_seek`. -/
def Tree.seek (tree : Tree V) (key : KeyEntry V) : Option Cursor :=
  match tree.root with
  | none => some ⟨none, 0⟩
  | some root =>
    (descend key tree.levels root 0).bind fun found =>
      tree.leaves[found.1]?.map fun leaf => ⟨some found.1, treePlace leaf.entries key⟩

/-- The loop of `markdown_core_key_tree_next` past the leaves that have no more. -/
def skip (leaves : List (Leaf V)) : ℕ → Cursor → Option Cursor
  | 0, _ => none
  | fuel + 1, cursor =>
    match cursor.leaf with
    | none => some cursor
    | some id =>
      leaves[id]?.bind fun leaf =>
        if cursor.index = leaf.entries.length then skip leaves fuel ⟨leaf.next, 0⟩
        else some cursor

/-- `markdown_core_key_tree_next`: the cursor stepped on, and the entry it was at. -/
def Tree.next (tree : Tree V) (cursor : Cursor) : Option (Cursor × Option (KeyEntry V)) :=
  (skip tree.leaves (tree.leaves.length + 1) cursor).bind fun cursor =>
    match cursor.leaf with
    | none => some (cursor, none)
    | some id =>
      (tree.entryAt (id, cursor.index)).map fun entry =>
        (⟨some id, cursor.index + 1⟩, some entry)

/-- What calls of `markdown_core_key_tree_next` give, one after another. -/
def Tree.walk (tree : Tree V) : ℕ → Cursor → Option (List (Option (KeyEntry V)))
  | 0, _ => some []
  | calls + 1, cursor =>
    (tree.next cursor).bind fun stepped =>
      (tree.walk calls stepped.1).map fun entries => stepped.2 :: entries

/-! ### Removal -/

/-- The loop of `markdown_core_key_tree_remove` over the sizes of the path. -/
def lessen (key : KeyEntry V) : (levels : ℕ) → Node V levels → Option (Node V levels)
  | 0, node => some node
  | levels + 1, inner =>
    let child := treeChild inner.slots key
    inner.slots[child]?.bind fun slot =>
      (lessen key levels slot.child).map fun below =>
        inner.slots.set child ⟨below, slot.size - 1, slot.key⟩

/-- `markdown_core_key_tree_remove`. -/
def Tree.remove (tree : Tree V) (key : KeyEntry V) : Option (Tree V) :=
  match tree.root with
  | none => some tree
  | some root =>
    (descend key tree.levels root 0).bind fun found =>
      tree.leaves[found.1]?.bind fun leaf =>
        let place := treePlace leaf.entries key
        if leaf.entries[place]?.any fun entry => keySame entry key then
          (lessen key tree.levels root).map fun root =>
            ⟨tree.levels, some root, tree.count - 1,
              tree.leaves.set found.1 { leaf with entries := leaf.entries.eraseIdx place }⟩
        else some tree

/-! ### Insertion -/

/-- An item put in a full node, which is split: what the node keeps and what the new one takes. -/
def splitAt {β : Type} (row : List β) (place : ℕ) (item : β) : List β × List β :=
  let start := if place < half then half - 1 else half
  if place < half then ((row.take start).insertIdx place item, row.drop start)
  else (row.take start, (row.drop start).insertIdx (place - half) item)

/-- The splits of a path whose leaf is full: those of the leaf and of the full nodes next above
it. -/
def splitsOf (key : KeyEntry V) : (levels : ℕ) → Node V levels → Option ℕ
  | 0, _ => some 1
  | levels + 1, inner =>
    inner.slots[treeChild inner.slots key]?.bind fun slot =>
      (splitsOf key levels slot.child).map fun splits =>
        if splits = levels + 1 ∧ inner.slots.length = fanout then levels + 2 else splits

/-- The entry an insertion makes. -/
def made (key : KeyEntry V) : KeyEntry V := { key with extra := 0, value := none }

/-- The entry put in its leaf: the leaves, what the leaf's split made, and where the entry is. -/
def putEntry (leaves : List (Leaf V)) (id : ℕ) (leaf : Leaf V) (place splits : ℕ)
    (key : KeyEntry V) : Option (List (Leaf V) × Option (Slot V (Node V 0)) × ℕ × ℕ) :=
  let entry := made key
  if splits = 0 then
    some (leaves.set id { leaf with entries := leaf.entries.insertIdx place entry }, none, id,
      place)
  else
    let right := leaves.length
    let split := splitAt leaf.entries place entry
    split.2.head?.map fun first =>
      (leaves.set id ⟨split.1, some right⟩ ++ [⟨split.2, leaf.next⟩],
        some ⟨right, split.2.length, first⟩,
        if place < half then (id, place) else (right, place - half))

/-- What one level of the path takes from the one below: the child, and the node its split made,
if it was split. With the node, what its own split made. -/
def putChild {α : Type} (sizeOf : α → Option ℕ) (slots : List (Slot V α)) (child : ℕ)
    (slot : Slot V α) (below : α) (made : Option (Slot V α)) :
    Option (List (Slot V α) × Option (Slot V (List (Slot V α)))) :=
  match made with
  | none => some (slots.set child ⟨below, slot.size + 1, slot.key⟩, none)
  | some made =>
    (sizeOf below).bind fun size =>
      let slots := slots.set child ⟨below, size, slot.key⟩
      if slots.length < fanout then some (slots.insertIdx (child + 1) made, none)
      else
        let split := splitAt slots (child + 1) made
        split.2.head?.map fun first =>
          (split.1, some ⟨split.2, (split.2.map Slot.size).sum, first.key⟩)

/-- The loop of `markdown_core_key_tree_entry` up the path. -/
def raise (leaves : List (Leaf V)) (key : KeyEntry V) (made : Option (Slot V (Node V 0))) :
    (levels : ℕ) → Node V levels → Option (Node V levels × Option (Slot V (Node V levels)))
  | 0, node => some (node, made)
  | levels + 1, inner =>
    let child := treeChild inner.slots key
    inner.slots[child]?.bind fun slot =>
      (raise leaves key made levels slot.child).bind fun below =>
        putChild (treeSize leaves levels) inner.slots child slot below.1 below.2

/-- The tree after an insertion: a root that was split gains a level above it. -/
def rooted (levels : ℕ) (raised : Node V levels × Option (Slot V (Node V levels))) (count : ℕ)
    (leaves : List (Leaf V)) : Option (Tree V) :=
  match raised.2 with
  | none => some ⟨levels, some raised.1, count + 1, leaves⟩
  | some made =>
    (treeSize leaves levels raised.1).map fun size =>
      ⟨levels + 1, some [⟨raised.1, size, ⟨0, [], 0, none, rfl⟩⟩, made], count + 1, leaves⟩

/-- The insertion in a tree that has a root: the tree, the place of the key's entry, if storage
was had, and whether it was made. -/
def insertIn (levels : ℕ) (root : Node V levels) (count : ℕ) (leaves : List (Leaf V))
    (granted : ℕ → Bool) (key : KeyEntry V) : Option (Tree V × Option (ℕ × ℕ) × Bool) :=
  (descend key levels root 0).bind fun found =>
    leaves[found.1]?.bind fun leaf =>
      let place := treePlace leaf.entries key
      if leaf.entries[place]?.any fun entry => keySame entry key then
        some (⟨levels, some root, count, leaves⟩, some (found.1, place), false)
      else
        let splits := if leaf.entries.length = fanout then splitsOf key levels root else some 0
        splits.bind fun splits =>
          if (List.range (splits + if levels < splits then 1 else 0)).all granted then
            (putEntry leaves found.1 leaf place splits key).bind fun put =>
              (raise put.1 key put.2.1 levels root).bind fun raised =>
                (rooted levels raised count put.1).map fun tree => (tree, some put.2.2, true)
          else some (⟨levels, some root, count, leaves⟩, none, false)

/-- `markdown_core_key_tree_entry`. -/
def Tree.entry (tree : Tree V) (granted : ℕ → Bool) (key : KeyEntry V) :
    Option (Tree V × Option (ℕ × ℕ) × Bool) :=
  match tree.root with
  | none =>
    if granted 0 then
      let id : Node V 0 := tree.leaves.length
      insertIn 0 id tree.count (tree.leaves ++ [⟨[], none⟩]) (fun n => granted (n + 1)) key
    else some (tree, none, false)
  | some root => insertIn tree.levels root tree.count tree.leaves granted key

/-- A caller's write through the pointer to an entry. -/
def Tree.write (tree : Tree V) (found : ℕ × ℕ) (extra : ℕ) (value : Option V) :
    Option (Tree V) :=
  tree.leaves[found.1]?.bind fun leaf =>
    leaf.entries[found.2]?.map fun entry =>
      { tree with
        leaves := tree.leaves.set found.1
          { leaf with entries := leaf.entries.set found.2 { entry with extra, value } } }

/-- A caller's write to the entry of a key, when the search finds one. -/
def Tree.put (tree : Tree V) (key : KeyEntry V) (extra : ℕ) (value : Option V) :
    Option (Tree V) :=
  (tree.find key).bind fun found =>
    found.1.elim (some tree) fun place => tree.write place extra value

/-- A call, with the storage that is granted to it. -/
inductive Call (V : Type)
  | entry (granted : ℕ → Bool) (key : KeyEntry V)
  | put (key : KeyEntry V) (extra : ℕ) (value : Option V)
  | remove (key : KeyEntry V)

/-- A call's tree, and the place it answers with. -/
def Call.apply (tree : Tree V) : Call V → Option (Tree V × Option (ℕ × ℕ))
  | .entry granted key => (tree.entry granted key).map fun answer => (answer.1, answer.2.1)
  | .put key extra value => (tree.put key extra value).map fun tree => (tree, none)
  | .remove key => (tree.remove key).map fun tree => (tree, none)

end MarkdownCore.KeyTree
