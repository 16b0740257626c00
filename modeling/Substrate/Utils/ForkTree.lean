import Mathlib

/-! # The fork tree

`fork_tree::ForkTree`: a forest of pending nodes, a node's children its nearest descendants. The
descent oracle does not fail, so `Error::Client` is left out; the searches run on fuel that
suffices.
-/

namespace Substrate

namespace ForkTree

structure Node (H N V : Type) where
  hash : H
  number : N
  data : V
  children : List (Node H N V)

inductive Error where
  | duplicate
  | unfinalizedAncestor
  | revert
  deriving DecidableEq, Repr

inductive FinalizationResult (V : Type) where
  | changed (data : Option V)
  | unchanged

inductive FilterAction where
  | remove
  | keepNode
  | keepTree
  deriving DecidableEq, Repr

end ForkTree

open ForkTree in
structure ForkTree (H N V : Type) where
  roots : List (Node H N V)
  bestFinalizedNumber : Option N

namespace ForkTree

variable {H N V : Type}

namespace Node

mutual
/-- `max_depth`: the length of the longest branch below the node. -/
def maxDepth : Node H N V → Nat
  | ⟨_, _, _, children⟩ => maxDepthList children

def maxDepthList : List (Node H N V) → Nat
  | [] => 0
  | node :: rest => max (node.maxDepth + 1) (maxDepthList rest)
end

mutual
def size : Node H N V → Nat
  | ⟨_, _, _, children⟩ => sizeList children + 1

def sizeList : List (Node H N V) → Nat
  | [] => 0
  | node :: rest => node.size + sizeList rest
end

/-- `sort_by_key(|n| Reverse(n.max_depth()))`, a stable sort by decreasing depth: a node goes
before the first node of the sorted rest that is no deeper. -/
def sortByDepth (nodes : List (Node H N V)) : List (Node H N V) :=
  nodes.insertionSort fun a b => b.maxDepth ≤ a.maxDepth

mutual
/-- The children of every node, by decreasing depth; sorting a subtree keeps its depth, so the
source's order of sorting does not matter. -/
def rebalance : Node H N V → Node H N V
  | ⟨hash, number, data, children⟩ => ⟨hash, number, data, sortByDepth (rebalanceList children)⟩

def rebalanceList : List (Node H N V) → List (Node H N V)
  | [] => []
  | node :: rest => node.rebalance :: rebalanceList rest
end

end Node

def new : ForkTree H N V := ⟨[], none⟩

def rebalance (t : ForkTree H N V) : ForkTree H N V :=
  { t with roots := Node.sortByDepth (Node.rebalanceList t.roots) }

def rootEntries (t : ForkTree H N V) : List (H × N × V) :=
  t.roots.map fun node => (node.hash, node.number, node.data)

/-! ## What every node holds

A property of the data that every operation keeps: the nodes of the forest after an operation
are nodes of the forest before it, with some of their children, or the node it imports.
-/

section All

variable (P : V → Prop)

mutual
def Node.All : Node H N V → Prop
  | ⟨_, _, data, children⟩ => P data ∧ Node.AllList children

def Node.AllList : List (Node H N V) → Prop
  | [] => True
  | node :: rest => node.All ∧ Node.AllList rest
end

variable {P}

theorem Node.allList_iff : ∀ {l : List (Node H N V)}, Node.AllList P l ↔ ∀ node ∈ l, node.All P
  | [] => by simp [Node.AllList]
  | node :: rest => by simp [Node.AllList, Node.allList_iff (l := rest)]

theorem Node.AllList.append {l l' : List (Node H N V)} (h : Node.AllList P l)
    (h' : Node.AllList P l') : Node.AllList P (l ++ l') := by
  rw [Node.allList_iff] at *
  intro node hnode
  rcases List.mem_append.mp hnode with hnode | hnode
  · exact h node hnode
  · exact h' node hnode

theorem Node.AllList.of_subset {l l' : List (Node H N V)} (h : Node.AllList P l) (hsub : l' ⊆ l) :
    Node.AllList P l' := by
  rw [Node.allList_iff] at *
  exact fun node hnode => h node (hsub hnode)

theorem Node.allList_sortByDepth {l : List (Node H N V)} :
    Node.AllList P (Node.sortByDepth l) ↔ Node.AllList P l := by
  simp only [Node.allList_iff, Node.sortByDepth, (List.perm_insertionSort _ l).mem_iff]

mutual
theorem Node.all_rebalance : ∀ node : Node H N V, node.All P → node.rebalance.All P
  | ⟨_, _, _, children⟩, ⟨hdata, hchildren⟩ =>
    ⟨hdata, Node.allList_sortByDepth.mpr (Node.allList_rebalanceList children hchildren)⟩

theorem Node.allList_rebalanceList :
    ∀ l : List (Node H N V), Node.AllList P l → Node.AllList P (Node.rebalanceList l)
  | [], _ => trivial
  | node :: rest, ⟨hnode, hrest⟩ => ⟨Node.all_rebalance node hnode, Node.allList_rebalanceList rest hrest⟩
end

def All (P : V → Prop) (t : ForkTree H N V) : Prop := Node.AllList P t.roots

theorem All.rebalance {t : ForkTree H N V} (h : t.All P) : t.rebalance.All P :=
  Node.allList_sortByDepth.mpr (Node.allList_rebalanceList t.roots h)

theorem forall_mem_modify {α : Type} {Q : α → Prop} {f : α → α} (hf : ∀ x, Q x → Q (f x)) :
    ∀ {l : List α} (i : Nat), (∀ x ∈ l, Q x) → ∀ x ∈ l.modify i f, Q x
  | [], _, _ => by simp
  | a :: l, 0, h => by
    simp only [List.modify_zero_cons, List.forall_mem_cons] at h ⊢
    exact ⟨hf a h.1, h.2⟩
  | a :: l, i + 1, h => by
    simp only [List.modify_succ_cons, List.forall_mem_cons] at h ⊢
    exact ⟨h.1, forall_mem_modify hf i h.2⟩

end All

variable [DecidableEq H] [LinearOrder N]
  {t t' : ForkTree H N V} {hash : H} {number : N} {isDescendentOf : H → H → Bool} {data : V}

/-- The inner loop of `find_node_index_where` over one root's search stack; past an ancestor of
`hash` it backtracks for the deepest one passing `predicate`. -/
def searchStack (hash : H) (number : N) (isDescendentOf : H → H → Bool) (predicate : V → Bool) :
    Nat → List (Node H N V × Nat) → Bool → List (Node H N V × Nat) × Bool × Bool
  | 0, stack, isDescendent => (stack, isDescendent, false)
  | _ + 1, [], isDescendent => ([], isDescendent, false)
  | fuel + 1, (node, i) :: stack, isDescendent =>
      if i < node.children.length ∧ isDescendent = false then
        let stack := (node, i + 1) :: stack
        match node.children[i]? with
        | some child =>
            if child.number < number then
              searchStack hash number isDescendentOf predicate fuel ((child, 0) :: stack)
                isDescendent
            else searchStack hash number isDescendentOf predicate fuel stack isDescendent
        | none => searchStack hash number isDescendentOf predicate fuel stack isDescendent
      else if isDescendent || isDescendentOf node.hash hash then
        if predicate node.data then (stack, true, true)
        else searchStack hash number isDescendentOf predicate fuel stack true
      else searchStack hash number isDescendentOf predicate fuel stack isDescendent

/-- The outer loop of `find_node_index_where` over the roots from `rootIdx`: roots no earlier than
`number` are skipped, and the search stops at the first root `hash` descends from. -/
def findFromRoot (hash : H) (number : N) (isDescendentOf : H → H → Bool) (predicate : V → Bool) :
    Nat → List (Node H N V) → Option (List Nat)
  | _, [] => none
  | rootIdx, root :: rest =>
      if number ≤ root.number then findFromRoot hash number isDescendentOf predicate (rootIdx + 1) rest
      else
        match searchStack hash number isDescendentOf predicate (2 * root.size) [(root, 0)] false with
        | (stack, _, true) => some (rootIdx :: stack.reverse.map fun entry => entry.2 - 1)
        | (_, true, false) => none
        | (_, false, false) => findFromRoot hash number isDescendentOf predicate (rootIdx + 1) rest

def findNodeIndexWhere (t : ForkTree H N V) (hash : H) (number : N)
    (isDescendentOf : H → H → Bool) (predicate : V → Bool) : Option (List Nat) :=
  findFromRoot hash number isDescendentOf predicate 0 t.roots

/-- The children of the node a path leads to from a list of nodes. -/
def childrenAt : List (Node H N V) → List Nat → Option (List (Node H N V))
  | nodes, [] => some nodes
  | nodes, i :: path => nodes[i]?.bind fun node => childrenAt node.children path

/-- `find_node_where` and `find_node_where_mut`: the node at the path `find_node_index_where`
returns; `none` is the panic of an index out of range. -/
def findNodeWhere (t : ForkTree H N V) (hash : H) (number : N) (isDescendentOf : H → H → Bool)
    (predicate : V → Bool) : Option (Node H N V) :=
  (t.findNodeIndexWhere hash number isDescendentOf predicate).bind fun path =>
    path.getLast?.bind fun last => (childrenAt t.roots path.dropLast).bind fun children =>
      children[last]?

def updateAt (f : List (Node H N V) → List (Node H N V)) :
    List (Node H N V) → List Nat → List (Node H N V)
  | nodes, [] => f nodes
  | nodes, i :: path => nodes.modify i fun node => { node with children := updateAt f node.children path }

/-- `import`: the node becomes the last child of the deepest node it descends from, or the last
root, and a branch it deepens is rebalanced. Returns whether it is a root. -/
def «import» (t : ForkTree H N V) (hash : H) (number : N) (data : V)
    (isDescendentOf : H → H → Bool) : Except Error (ForkTree H N V × Bool) :=
  if (t.bestFinalizedNumber.map fun best => decide (number ≤ best)).getD false then .error .revert
  else
    let node : Node H N V := ⟨hash, number, data, []⟩
    match t.findNodeIndexWhere hash number isDescendentOf fun _ => true with
    | some path =>
        let children := (childrenAt t.roots path).getD []
        if children.any fun elem => decide (elem.hash = hash) then .error .duplicate
        else
          let t := { t with roots := updateAt (· ++ [node]) t.roots path }
          .ok (if children.length + 1 = 1 then t.rebalance else t, false)
    | none =>
        if t.roots.any fun elem => decide (elem.hash = hash) then .error .duplicate
        else
          let t := { t with roots := t.roots ++ [node] }
          .ok (if t.roots.length = 1 then t.rebalance else t, true)

def goesDown (hash : H) (number : N) (isDescendentOf : H → H → Bool) (child : Node H N V) : Bool :=
  decide (child.number < number) && isDescendentOf child.hash hash

def keepsChild (hash : H) (number : N) (isDescendentOf : H → H → Bool) (child : Node H N V) :
    Bool :=
  (decide (child.number = number) && decide (child.hash = hash)) ||
    (decide (number < child.number) && isDescendentOf hash child.hash)

mutual
/-- The loop of `prune` below the new root: down the first child that `goesDown`, cutting its
siblings, and keeping the last node's children that `keepsChild`. -/
def pruneBelow (hash : H) (number : N) (isDescendentOf : H → H → Bool) :
    Node H N V → Node H N V × List (Node H N V)
  | ⟨blockHash, blockNumber, data, children⟩ =>
    match pruneChildren hash number isDescendentOf children with
    | some (next, cut) => (⟨blockHash, blockNumber, data, [next]⟩, cut)
    | none =>
      (⟨blockHash, blockNumber, data, children.filter (keepsChild hash number isDescendentOf)⟩,
        children.filter fun child => !keepsChild hash number isDescendentOf child)

/-- The first child that `goesDown`, pruned below, and the subtrees cut: its siblings before and
after it, then those cut below it; none when no child goes down. -/
def pruneChildren (hash : H) (number : N) (isDescendentOf : H → H → Bool) :
    List (Node H N V) → Option (Node H N V × List (Node H N V))
  | [] => none
  | child :: rest =>
    if goesDown hash number isDescendentOf child then
      let (next, cut) := pruneBelow hash number isDescendentOf child
      some (next, rest ++ cut)
    else (pruneChildren hash number isDescendentOf rest).map fun (next, cut) => (next, child :: cut)
end

/-- `RemovedIterator` over the stack `removed`: pop the last subtree, yield its node, push its
children from last to first. The fuel is the number of nodes. -/
def removedEntries : Nat → List (Node H N V) → List (H × N × V)
  | 0, _ => []
  | fuel + 1, stack =>
    match stack.getLast? with
    | none => []
    | some node =>
      (node.hash, node.number, node.data) :: removedEntries fuel (stack.dropLast ++ node.children.reverse)

/-- `prune`: the forest re-rooted at the node `find_node_index_where` finds, keeping the branch to
`hash` and its subtrees; `none` is a panic on an index out of range. -/
def prune (t : ForkTree H N V) (hash : H) (number : N) (isDescendentOf : H → H → Bool)
    (predicate : V → Bool) : Option (ForkTree H N V × List (H × N × V)) :=
  match t.findNodeIndexWhere hash number isDescendentOf predicate with
  | none => some (t, [])
  | some path => do
    let last ← path.getLast?
    let siblings ← childrenAt t.roots path.dropLast
    let root ← siblings[last]?
    -- the forest taken out, with the new root detached from its siblings
    let removed := updateAt (fun siblings => siblings.eraseIdx last) t.roots path.dropLast
    let (root, cut) := pruneBelow hash number isDescendentOf root
    let removed := removed ++ cut
    pure (rebalance { t with roots := [root] }, removedEntries (Node.sizeList removed) removed)

/-- The first root that passes `predicate` and that `hash` is or descends from, unless one of its
children is no later than `number` and `hash` is or descends from it. -/
def findFinalizedRoot (hash : H) (number : N) (isDescendentOf : H → H → Bool) (predicate : V → Bool) :
    Nat → List (Node H N V) → Except Error (Option Nat)
  | _, [] => .ok none
  | i, root :: rest =>
      if predicate root.data ∧ (root.hash = hash ∨ isDescendentOf root.hash hash) then
        if root.children.any fun child =>
            decide (child.number ≤ number) && (decide (child.hash = hash) || isDescendentOf child.hash hash) then
          .error .unfinalizedAncestor
        else .ok (some i)
      else findFinalizedRoot hash number isDescendentOf predicate (i + 1) rest

/-- The roots kept after a finalization: descendants of the finalized block, or the block itself,
or its ancestors. -/
def retainsRoot (hash : H) (number : N) (isDescendentOf : H → H → Bool) (root : Node H N V) : Bool :=
  (decide (number < root.number) && isDescendentOf hash root.hash) ||
    (decide (root.number = number) && decide (root.hash = hash)) || isDescendentOf root.hash hash

def takeFinalized (roots : List (Node H N V)) (position : Option Nat) :
    List (Node H N V) × Option V :=
  match position.bind fun i => roots[i]? with
  | some node => (node.children, some node.data)
  | none => (roots, none)

def finalizationResult : Option V → Bool → FinalizationResult V
  | some data, _ => .changed (some data)
  | none, true => .changed none
  | none, false => .unchanged

/-- `finalize_with_descendent_if`: the root found by `findFinalizedRoot` is finalized, its
children become the roots, and only the roots retained by `retainsRoot` stay. -/
def finalizeWithDescendentIf (t : ForkTree H N V) (hash : H) (number : N)
    (isDescendentOf : H → H → Bool) (predicate : V → Bool) :
    Except Error (ForkTree H N V × FinalizationResult V) :=
  if (t.bestFinalizedNumber.map fun best => decide (number ≤ best)).getD false then .error .revert
  else
    match findFinalizedRoot hash number isDescendentOf predicate 0 t.roots with
    | .error e => .error e
    | .ok position =>
        let (roots, nodeData) := takeFinalized t.roots position
        let kept := roots.filter (retainsRoot hash number isDescendentOf)
        .ok (⟨kept, some number⟩, finalizationResult nodeData (decide (kept.length ≠ roots.length)))

/-- `node_iter`: a stack of the nodes left, whose last node is yielded next and replaced by its
children, the first child last. -/
def nodeIter : Nat → List (Node H N V) → List (Node H N V)
  | 0, _ => []
  | fuel + 1, stack =>
      match stack.getLast? with
      | none => []
      | some node => node :: nodeIter fuel (stack.dropLast ++ node.children.reverse)

/-- The loop of `finalizes_any_with_descendent_if` over `node_iter`: the first node passing
`predicate` that `hash` is or descends from decides. -/
def findFinalizingNode (hash : H) (number : N) (isDescendentOf : H → H → Bool)
    (predicate : V → Bool) (roots : List (Node H N V)) : List (Node H N V) → Except Error (Option Bool)
  | [] => .ok none
  | node :: nodes =>
      if predicate node.data ∧ (node.hash = hash ∨ isDescendentOf node.hash hash) then
        if node.children.any fun child =>
            decide (child.number ≤ number) && (decide (child.hash = hash) || isDescendentOf child.hash hash) then
          .error .unfinalizedAncestor
        else .ok (some (roots.any fun root => decide (root.hash = node.hash)))
      else findFinalizingNode hash number isDescendentOf predicate roots nodes

/-- `finalizes_any_with_descendent_if`: the check of `finalize_with_descendent_if` made over
every node of the tree, without changing it. -/
def finalizesAnyWithDescendentIf (t : ForkTree H N V) (hash : H) (number : N)
    (isDescendentOf : H → H → Bool) (predicate : V → Bool) : Except Error (Option Bool) :=
  if (t.bestFinalizedNumber.map fun best => decide (number ≤ best)).getD false then .error .revert
  else
    findFinalizingNode hash number isDescendentOf predicate t.roots
      (nodeIter (Node.sizeList t.roots) t.roots.reverse)

/-- One pass of `drain_filter` over a queue: each node is kept with its subtree, kept with its
children queued under its index, or removed. -/
def filterQueue (filter : H → N → V → FilterAction) :
    List (Option Nat × Node H N V) → List (Option Nat × Node H N V) × List (Node H N V) ×
      List (Option Nat × Node H N V) →
      List (Option Nat × Node H N V) × List (Node H N V) × List (Option Nat × Node H N V)
  | [], acc => acc
  | (parent, node) :: rest, (retained, removed, next) =>
      match filter node.hash node.number node.data with
      | .keepNode =>
          let index := retained.length
          filterQueue filter rest (retained ++ [(parent, { node with children := [] })], removed,
            next ++ node.children.reverse.map fun child => (some index, child))
      | .keepTree => filterQueue filter rest (retained ++ [(parent, node)], removed, next)
      | .remove => filterQueue filter rest (retained, removed ++ [node], next)

def filterLevels (filter : H → N → V → FilterAction) :
    Nat → List (Option Nat × Node H N V) → List (Option Nat × Node H N V) → List (Node H N V) →
      List (Option Nat × Node H N V) × List (Node H N V)
  | 0, _, retained, removed => (retained, removed)
  | _ + 1, [], retained, removed => (retained, removed)
  | fuel + 1, entry :: queue, retained, removed =>
      let (retained, removed, next) := filterQueue filter (entry :: queue) (retained, removed, [])
      filterLevels filter fuel next retained removed

/-- The loop of `drain_filter` that rebuilds the forest: the last retained node becomes the last
root, or the last child of its parent, retained before it. -/
def rebuild : Nat → List (Option Nat × Node H N V) → List (Node H N V) → List (Node H N V)
  | 0, _, roots => roots
  | fuel + 1, retained, roots =>
      match retained.getLast? with
      | none => roots
      | some (none, node) => rebuild fuel retained.dropLast (roots ++ [node])
      | some (some i, node) =>
          rebuild fuel (retained.dropLast.modify i fun entry =>
            (entry.1, { entry.2 with children := entry.2.children ++ [node] })) roots

def drainFilter (t : ForkTree H N V) (filter : H → N → V → FilterAction) :
    ForkTree H N V × List (Node H N V) :=
  let (retained, removed) := filterLevels filter (Node.sizeList t.roots + 1)
    (t.roots.reverse.map fun root => (none, root)) [] []
  let t := { t with roots := rebuild retained.length retained [] }
  (if removed.isEmpty then t else t.rebalance, removed)

/-- What a pass does with a node: remove it, keep a node in its place with its subtree, or keep one
and queue the old node's children under it. -/
inductive PassAction (H N W : Type) where
  | remove
  | keepTree (node : Node H N W)
  | keepNode (node : Node H N W)

/-- One pass over a level, the loop body of `map` and `drain_filter`: a kept node goes under its
parent's index, and the children of a node kept alone are queued under its own. -/
def levelPass {W : Type} (action : Node H N V → PassAction H N W) :
    List (Option Nat × Node H N V) →
      List (Option Nat × Node H N W) × List (Node H N V) × List (Option Nat × Node H N V) →
      List (Option Nat × Node H N W) × List (Node H N V) × List (Option Nat × Node H N V)
  | [], acc => acc
  | (parent, node) :: rest, (output, removed, next) =>
      match action node with
      | .remove => levelPass action rest (output, removed ++ [node], next)
      | .keepTree new => levelPass action rest (output ++ [(parent, new)], removed, next)
      | .keepNode new =>
          let index := output.length
          levelPass action rest (output ++ [(parent, new)], removed,
            next ++ node.children.reverse.map fun child => (some index, child))

def levelPasses {W : Type} (action : Node H N V → PassAction H N W) :
    Nat → List (Option Nat × Node H N V) → List (Option Nat × Node H N W) → List (Node H N V) →
      List (Option Nat × Node H N W) × List (Node H N V)
  | 0, _, output, removed => (output, removed)
  | _ + 1, [], output, removed => (output, removed)
  | fuel + 1, entry :: queue, output, removed =>
      let (output, removed, next) := levelPass action (entry :: queue) (output, removed, [])
      levelPasses action fuel next output removed

def mapAction {VT : Type} (f : H → N → V → VT) (node : Node H N V) : PassAction H N VT :=
  .keepNode ⟨node.hash, node.number, f node.hash node.number node.data, []⟩

/-- `map`: the nodes with their data mapped, pushed to the output level by level, and the forest
rebuilt from the output as `drain_filter` rebuilds it. -/
def map {VT : Type} (t : ForkTree H N V) (f : H → N → V → VT) : ForkTree H N VT :=
  let output := (levelPasses (mapAction f) (Node.sizeList t.roots + 1)
    (t.roots.reverse.map fun root => (none, root)) [] []).1
  ⟨rebuild output.length output [], t.bestFinalizedNumber⟩

section Preserve

variable {P : V → Prop}

omit [DecidableEq H] [LinearOrder N] in
/-- A change of the children at a path that keeps `P` keeps it for the forest. -/
theorem allList_updateAt {f : List (Node H N V) → List (Node H N V)}
    (hf : ∀ l, Node.AllList P l → Node.AllList P (f l)) :
    ∀ (nodes : List (Node H N V)) (path : List Nat), Node.AllList P nodes →
      Node.AllList P (updateAt f nodes path)
  | nodes, [], h => hf nodes h
  | nodes, i :: path, h => by
    rw [updateAt, Node.allList_iff]
    refine forall_mem_modify (fun node hnode => ?_) i (Node.allList_iff.mp h)
    obtain ⟨hash, number, data, children⟩ := node
    exact ⟨hnode.1, allList_updateAt hf children path hnode.2⟩

/-- An imported node whose data satisfies `P` keeps it for the forest. -/
theorem All.import {isRoot : Bool} (h : t.All P) (hdata : P data)
    (himport : t.import hash number data isDescendentOf = .ok (t', isRoot)) : t'.All P := by
  have hnode : Node.AllList P [⟨hash, number, data, []⟩] := ⟨⟨hdata, trivial⟩, trivial⟩
  rw [ForkTree.import] at himport
  split at himport
  · cases himport
  · dsimp only at himport
    split at himport
    · rename_i path hpath
      split at himport
      · cases himport
      · simp only [Except.ok.injEq, Prod.mk.injEq] at himport
        obtain ⟨rfl, -⟩ := himport
        have hroots : (ForkTree.mk (updateAt (· ++ [⟨hash, number, data, []⟩]) t.roots path)
            t.bestFinalizedNumber).All P :=
          allList_updateAt (fun l hl => hl.append hnode) t.roots path h
        split
        · exact hroots.rebalance
        · exact hroots
    · split at himport
      · cases himport
      · simp only [Except.ok.injEq, Prod.mk.injEq] at himport
        obtain ⟨rfl, -⟩ := himport
        have hroots : (ForkTree.mk (t.roots ++ [⟨hash, number, data, []⟩])
            t.bestFinalizedNumber).All P := Node.AllList.append h hnode
        split
        · exact hroots.rebalance
        · exact hroots

/-- A successful finalization keeps the roots `retainsRoot` retains, of the roots left once the
finalized root is taken. -/
theorem finalizeWithDescendentIf_ok {predicate : V → Bool} {result : FinalizationResult V}
    (hfinal : t.finalizeWithDescendentIf hash number isDescendentOf predicate = .ok (t', result)) :
    ∃ position, findFinalizedRoot hash number isDescendentOf predicate 0 t.roots = .ok position ∧
      t' = ⟨(takeFinalized t.roots position).1.filter (retainsRoot hash number isDescendentOf),
        some number⟩ := by
  rw [finalizeWithDescendentIf] at hfinal
  split at hfinal
  · cases hfinal
  · split at hfinal
    · cases hfinal
    · rename_i position hposition
      simp only [Except.ok.injEq, Prod.mk.injEq] at hfinal
      exact ⟨position, hposition, hfinal.1.symm⟩

omit [DecidableEq H] [LinearOrder N] in
theorem finalizationResult_none (changed : Bool) :
    finalizationResult none changed ≠ .changed (some data) := by
  cases changed <;> simp [finalizationResult]

/-- The data a finalization returns is the data of a root. -/
theorem finalizeWithDescendentIf_changed {predicate : V → Bool}
    (hfinal : t.finalizeWithDescendentIf hash number isDescendentOf predicate =
      .ok (t', .changed (some data))) : ∃ node ∈ t.roots, node.data = data := by
  rw [finalizeWithDescendentIf] at hfinal
  split at hfinal
  · cases hfinal
  · split at hfinal
    · cases hfinal
    · rename_i position hposition
      simp only [Except.ok.injEq, Prod.mk.injEq] at hfinal
      obtain ⟨-, hresult⟩ := hfinal
      -- only a finalized root gives back data
      cases htake : (takeFinalized t.roots position).2 with
      | none =>
        rw [htake] at hresult
        exact absurd hresult (finalizationResult_none _)
      | some data' =>
        rw [htake, finalizationResult, FinalizationResult.changed.injEq, Option.some.injEq] at hresult
        subst hresult
        rw [takeFinalized] at htake
        split at htake
        · rename_i node hnode
          obtain ⟨i, -, hi⟩ := Option.bind_eq_some_iff.mp hnode
          simp only [Option.some.injEq] at htake
          exact ⟨node, List.mem_of_getElem? hi, htake⟩
        · cases htake

omit [DecidableEq H] [LinearOrder N] in
theorem allList_takeFinalized {roots : List (Node H N V)} (h : Node.AllList P roots)
    (position : Option Nat) : Node.AllList P (takeFinalized roots position).1 := by
  rw [takeFinalized]
  split
  · rename_i node hnode
    obtain ⟨i, -, hi⟩ := Option.bind_eq_some_iff.mp hnode
    have hall := Node.allList_iff.mp h node (List.mem_of_getElem? hi)
    obtain ⟨_, _, _, children⟩ := node
    exact hall.2
  · exact h

/-- A finalization keeps `P`: the roots after it are roots, or children of a root, before it. -/
theorem All.finalizeWithDescendentIf {predicate : V → Bool} {result : FinalizationResult V}
    (h : t.All P)
    (hfinal : t.finalizeWithDescendentIf hash number isDescendentOf predicate = .ok (t', result)) :
    t'.All P := by
  obtain ⟨position, -, rfl⟩ := finalizeWithDescendentIf_ok hfinal
  exact (allList_takeFinalized h position).of_subset fun node hnode => (List.mem_filter.mp hnode).1

omit [DecidableEq H] [LinearOrder N] in
/-- The pass of `drain_filter` keeps `P` for the retained nodes and the queued children. -/
theorem filterQueue_all (filter : H → N → V → FilterAction) :
    ∀ (queue : List (Option Nat × Node H N V)) (retained : List (Option Nat × Node H N V))
      (removed : List (Node H N V)) (next : List (Option Nat × Node H N V)),
      (∀ e ∈ queue, e.2.All P) → (∀ e ∈ retained, e.2.All P) → (∀ e ∈ next, e.2.All P) →
      (∀ e ∈ (filterQueue filter queue (retained, removed, next)).1, e.2.All P) ∧
        ∀ e ∈ (filterQueue filter queue (retained, removed, next)).2.2, e.2.All P
  | [], _, _, _, _, hretained, hnext => ⟨hretained, hnext⟩
  | (parent, node) :: rest, retained, removed, next, hqueue, hretained, hnext => by
    have hnode : node.All P := hqueue (parent, node) List.mem_cons_self
    have hrest : ∀ e ∈ rest, e.2.All P := fun e he => hqueue e (List.mem_cons_of_mem _ he)
    rw [filterQueue]
    split
    · -- the node stays without its children, which go to the next pass
      obtain ⟨hash, number, data, children⟩ := node
      refine filterQueue_all filter rest _ _ _ hrest ?_ ?_
      · intro e he
        rcases List.mem_append.mp he with he | he
        · exact hretained e he
        · rw [List.mem_singleton.mp he]
          exact ⟨hnode.1, trivial⟩
      · intro e he
        rcases List.mem_append.mp he with he | he
        · exact hnext e he
        · obtain ⟨child, hchild, rfl⟩ := List.mem_map.mp he
          exact Node.allList_iff.mp hnode.2 child (List.mem_reverse.mp hchild)
    · refine filterQueue_all filter rest _ _ _ hrest (fun e he => ?_) hnext
      rcases List.mem_append.mp he with he | he
      · exact hretained e he
      · rw [List.mem_singleton.mp he]
        exact hnode
    · exact filterQueue_all filter rest _ _ _ hrest hretained hnext

omit [DecidableEq H] [LinearOrder N] in
theorem filterLevels_all (filter : H → N → V → FilterAction) :
    ∀ (fuel : Nat) (queue retained : List (Option Nat × Node H N V)) (removed : List (Node H N V)),
      (∀ e ∈ queue, e.2.All P) → (∀ e ∈ retained, e.2.All P) →
      ∀ e ∈ (filterLevels filter fuel queue retained removed).1, e.2.All P
  | 0, _, _, _, _, hretained => hretained
  | _ + 1, [], _, _, _, hretained => hretained
  | fuel + 1, entry :: queue, retained, removed, hqueue, hretained => by
    rw [filterLevels]
    obtain ⟨hretained', hnext⟩ :=
      filterQueue_all filter (entry :: queue) retained removed [] hqueue hretained (by simp)
    exact filterLevels_all filter fuel _ _ _ hnext hretained'

omit [DecidableEq H] [LinearOrder N] in
/-- Rebuilding the forest from retained nodes that satisfy `P` keeps it. -/
theorem rebuild_all :
    ∀ (fuel : Nat) (retained : List (Option Nat × Node H N V)) (roots : List (Node H N V)),
      (∀ e ∈ retained, e.2.All P) → Node.AllList P roots →
      Node.AllList P (rebuild fuel retained roots)
  | 0, _, _, _, hroots => hroots
  | fuel + 1, retained, roots, hretained, hroots => by
    rw [rebuild]
    have hdrop : ∀ e ∈ retained.dropLast, e.2.All P :=
      fun e he => hretained e (List.dropLast_subset _ he)
    split
    · exact hroots
    · rename_i node hlast
      exact rebuild_all fuel _ _ hdrop
        (hroots.append ⟨hretained _ (List.mem_of_getLast? hlast), trivial⟩)
    · rename_i i node hlast
      have hnode : node.All P := hretained _ (List.mem_of_getLast? hlast)
      refine rebuild_all fuel _ _ (forall_mem_modify (fun entry hentry => ?_) i hdrop) hroots
      -- the node becomes the last child of its parent
      obtain ⟨parent, hash, number, data, children⟩ := entry
      exact ⟨hentry.1, Node.AllList.append hentry.2 ⟨hnode, trivial⟩⟩

omit [DecidableEq H] [LinearOrder N] in
/-- `drain_filter` keeps `P`. -/
theorem All.drainFilter {t : ForkTree H N V} (h : t.All P) (filter : H → N → V → FilterAction) :
    (t.drainFilter filter).1.All P := by
  have hqueue : ∀ e ∈ t.roots.reverse.map (fun root => ((none : Option Nat), root)), e.2.All P := by
    intro e he
    obtain ⟨root, hroot, rfl⟩ := List.mem_map.mp he
    exact Node.allList_iff.mp h root (List.mem_reverse.mp hroot)
  have hretained := filterLevels_all filter (Node.sizeList t.roots + 1) _ [] [] hqueue (by simp)
  rw [ForkTree.drainFilter]
  generalize filterLevels filter (Node.sizeList t.roots + 1)
    (t.roots.reverse.map fun root => (none, root)) [] [] = result at hretained ⊢
  obtain ⟨retained, removed⟩ := result
  have hroots : (ForkTree.mk (rebuild retained.length retained []) t.bestFinalizedNumber).All P :=
    rebuild_all _ _ [] hretained trivial
  dsimp only
  split
  · exact hroots
  · exact hroots.rebalance

end Preserve

end ForkTree

end Substrate
