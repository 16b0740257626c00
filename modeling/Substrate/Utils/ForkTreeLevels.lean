import Substrate.Utils.ForkTreePrune

/-! # What `map` and `drain_filter` rebuild

The two reversals of the level passes cancel: the rebuilt forest is what a recursion down the
forest makes (`rebuild_levelPasses`), so `map` changes only the data and `drain_filter` removes
exactly the recursive rule's dropped subtrees.
-/

namespace Substrate.ForkTree

open Node

variable {H N V W : Type}

/-! ## Lists changed at an index -/

theorem modify_append_of_lt {α : Type} (f : α → α) :
    ∀ {l : List α} (l' : List α) {i : Nat}, i < l.length → (l ++ l').modify i f = l.modify i f ++ l'
  | [], _, _, h => absurd h (Nat.not_lt_zero _)
  | a :: l, l', 0, _ => by
    rw [List.cons_append, List.modify_zero_cons, List.modify_zero_cons, List.cons_append]
  | a :: l, l', i + 1, h => by
    rw [List.cons_append, List.modify_succ_cons, List.modify_succ_cons, List.cons_append,
      modify_append_of_lt f l' (Nat.lt_of_succ_lt_succ h)]

theorem modify_concat_length {α : Type} (f : α → α) :
    ∀ (l : List α) (a : α), (l ++ [a]).modify l.length f = l ++ [f a]
  | [], a => by rw [List.nil_append, List.length_nil, List.modify_zero_cons, List.nil_append]
  | b :: l, a => by
    rw [List.cons_append, List.length_cons, List.modify_succ_cons, modify_concat_length f l a,
      List.cons_append]

def PointsBelow {α : Type} (k : Nat) (entries : List (Option Nat × α)) : Prop :=
  ∀ e ∈ entries, ∀ i, e.1 = some i → i < k

theorem PointsBelow.mono {α : Type} {k k' : Nat} {entries : List (Option Nat × α)}
    (h : PointsBelow k entries) (hk : k ≤ k') : PointsBelow k' entries :=
  fun e he i hi => lt_of_lt_of_le (h e he i hi) hk

theorem pointsBelow_append {α : Type} {k : Nat} {l l' : List (Option Nat × α)} :
    PointsBelow k (l ++ l') ↔ PointsBelow k l ∧ PointsBelow k l' := by
  simp only [PointsBelow, List.mem_append, or_imp, forall_and]

/-! ## The rebuild -/

section Place

def place : Option Nat × Node H N W → List (Option Nat × Node H N W) × List (Node H N W) →
    List (Option Nat × Node H N W) × List (Node H N W)
  | (none, node), (output, roots) => (output, roots ++ [node])
  | (some i, node), (output, roots) =>
      (output.modify i fun entry => (entry.1, { entry.2 with children := entry.2.children ++ [node] }),
        roots)

theorem rebuild_concat (fuel : Nat) (output : List (Option Nat × Node H N W))
    (e : Option Nat × Node H N W) (roots : List (Node H N W)) :
    rebuild (fuel + 1) (output ++ [e]) roots =
      rebuild fuel (place e (output, roots)).1 (place e (output, roots)).2 := by
  obtain ⟨parent, node⟩ := e
  rw [rebuild, List.getLast?_concat]
  cases parent with
  | none => rw [List.dropLast_concat, place]
  | some i => rw [List.dropLast_concat, place]

theorem length_place (e : Option Nat × Node H N W)
    (state : List (Option Nat × Node H N W) × List (Node H N W)) :
    (place e state).1.length = state.1.length := by
  obtain ⟨parent, node⟩ := e
  obtain ⟨output, roots⟩ := state
  cases parent with
  | none => rfl
  | some i => rw [place, List.length_modify]

theorem length_foldr_place (state : List (Option Nat × Node H N W) × List (Node H N W)) :
    ∀ entries : List (Option Nat × Node H N W), (entries.foldr place state).1.length = state.1.length
  | [] => rfl
  | e :: entries => by rw [List.foldr_cons, length_place, length_foldr_place state entries]

theorem foldr_place_append {output : List (Option Nat × Node H N W)} (extra : List (Option Nat × Node H N W))
    (roots : List (Node H N W)) :
    ∀ {entries : List (Option Nat × Node H N W)}, PointsBelow output.length entries →
      entries.foldr place (output ++ extra, roots) =
        ((entries.foldr place (output, roots)).1 ++ extra, (entries.foldr place (output, roots)).2)
  | [], _ => rfl
  | ⟨parent, node⟩ :: entries, h => by
    have hrest := foldr_place_append extra roots fun e he => h e (List.mem_cons_of_mem _ he)
    have hlen := length_foldr_place (output, roots) entries
    rw [List.foldr_cons, List.foldr_cons, hrest]
    generalize entries.foldr place (output, roots) = state at hlen ⊢
    obtain ⟨output', roots'⟩ := state
    cases parent with
    | none => rfl
    | some i =>
      have hi : i < output'.length := hlen ▸ h _ List.mem_cons_self i rfl
      rw [place, place, modify_append_of_lt _ _ hi]

/-- Popping a block of entries whose parents come before it places them, last entry first. -/
theorem rebuild_block (fuel : Nat) (block : List (Option Nat × Node H N W)) :
    ∀ (output : List (Option Nat × Node H N W)) (roots : List (Node H N W)),
      PointsBelow output.length block →
      rebuild (block.length + fuel) (output ++ block) roots =
        rebuild fuel (block.foldr place (output, roots)).1 (block.foldr place (output, roots)).2 := by
  induction block using List.reverseRecOn with
  | nil =>
    intro output roots _
    rw [List.length_nil, Nat.zero_add, List.append_nil, List.foldr_nil]
  | append_singleton block e ih =>
    intro output roots h
    obtain ⟨hblock, he⟩ := pointsBelow_append.mp h
    -- the last entry goes to its place in the output before the block
    have hframe := foldr_place_append block roots he
    rw [List.foldr_cons, List.foldr_nil, List.foldr_cons, List.foldr_nil] at hframe
    rw [List.length_append, List.length_singleton, Nat.add_right_comm, ← List.append_assoc,
      rebuild_concat, hframe, ih _ _ (hblock.mono (length_place e (output, roots)).ge), List.foldr_append,
      List.foldr_cons, List.foldr_nil]

/-- Trees placed, last first, under the last entry become its last children, in order. -/
theorem foldr_place_children (output : List (Option Nat × Node H N W)) (parent : Option Nat)
    (roots : List (Node H N W)) :
    ∀ (trees : List (Node H N W)) (node : Node H N W),
      (trees.reverse.map fun tree => (some output.length, tree)).foldr place
          (output ++ [(parent, node)], roots) =
        (output ++ [(parent, { node with children := node.children ++ trees })], roots)
  | [], ⟨_, _, _, _⟩ => by rw [List.reverse_nil, List.map_nil, List.foldr_nil, List.append_nil]
  | tree :: trees, node => by
    rw [List.reverse_cons, List.map_append, List.foldr_append, List.map_singleton, List.foldr_cons,
      List.foldr_nil, place, modify_concat_length, foldr_place_children output parent roots trees]
    simp only [List.append_assoc, List.singleton_append]

/-- Trees placed, last first, as roots become the last roots, in order. -/
theorem foldr_place_roots (output : List (Option Nat × Node H N W)) :
    ∀ (trees roots : List (Node H N W)),
      (trees.reverse.map fun tree => ((none : Option Nat), tree)).foldr place (output, roots) =
        (output, roots ++ trees)
  | [], roots => by rw [List.reverse_nil, List.map_nil, List.foldr_nil, List.append_nil]
  | tree :: trees, roots => by
    rw [List.reverse_cons, List.map_append, List.foldr_append, List.map_singleton, List.foldr_cons,
      List.foldr_nil, place, foldr_place_roots output trees, List.append_assoc,
      List.singleton_append]

end Place

/-! ## The recursive rule -/

section Rule

variable (action : Node H N V → PassAction H N W)

mutual
/-- What the passes make of a subtree: nothing of a node removed, the node kept with its subtree, or
kept with what is made of its children. -/
def rebuilt : Node H N V → List (Node H N W)
  | ⟨blockHash, number, data, children⟩ =>
    match action ⟨blockHash, number, data, children⟩ with
    | .remove => []
    | .keepTree new => [new]
    | .keepNode new => [{ new with children := new.children ++ rebuiltList children }]

def rebuiltList : List (Node H N V) → List (Node H N W)
  | [] => []
  | node :: rest => rebuilt node ++ rebuiltList rest
end

mutual
def removedBelow : Node H N V → List (Node H N V)
  | ⟨blockHash, number, data, children⟩ =>
    match action ⟨blockHash, number, data, children⟩ with
    | .remove => [⟨blockHash, number, data, children⟩]
    | .keepTree _ => []
    | .keepNode _ => removedBelowList children

def removedBelowList : List (Node H N V) → List (Node H N V)
  | [] => []
  | node :: rest => removedBelow node ++ removedBelowList rest
end

variable {action} {node : Node H N V} {new : Node H N W}

theorem rebuilt_of_remove (h : action node = .remove) : rebuilt action node = [] := by
  obtain ⟨hash, number, data, children⟩ := node
  rw [rebuilt, h]

theorem rebuilt_of_keepTree (h : action node = .keepTree new) : rebuilt action node = [new] := by
  obtain ⟨hash, number, data, children⟩ := node
  rw [rebuilt, h]

theorem rebuilt_of_keepNode (h : action node = .keepNode new) :
    rebuilt action node = [{ new with children := new.children ++ rebuiltList action node.children }] := by
  obtain ⟨hash, number, data, children⟩ := node
  rw [rebuilt, h]

theorem removedBelow_of_remove (h : action node = .remove) : removedBelow action node = [node] := by
  obtain ⟨hash, number, data, children⟩ := node
  rw [removedBelow, h]

theorem removedBelow_of_keepTree (h : action node = .keepTree new) :
    removedBelow action node = [] := by
  obtain ⟨hash, number, data, children⟩ := node
  rw [removedBelow, h]

theorem removedBelow_of_keepNode (h : action node = .keepNode new) :
    removedBelow action node = removedBelowList action node.children := by
  obtain ⟨hash, number, data, children⟩ := node
  rw [removedBelow, h]

variable (action)

variable (l : List (Node H N V))

theorem rebuiltList_eq_flatMap :
    rebuiltList action l = l.flatMap (rebuilt action) := by
  induction l with
  | nil => rw [rebuiltList, List.flatMap_nil]
  | cons node rest ih => rw [rebuiltList, List.flatMap_cons, ih]

theorem removedBelowList_eq_flatMap :
    removedBelowList action l = l.flatMap (removedBelow action) := by
  induction l with
  | nil => rw [removedBelowList, List.flatMap_nil]
  | cons node rest ih => rw [removedBelowList, List.flatMap_cons, ih]

theorem removedBelowList_append (l l' : List (Node H N V)) :
    removedBelowList action (l ++ l') = removedBelowList action l ++ removedBelowList action l' := by
  rw [removedBelowList_eq_flatMap, removedBelowList_eq_flatMap, removedBelowList_eq_flatMap,
    List.flatMap_append]

/-- A subtree makes at most one tree, so reversing a forest reverses what is made of it. -/
theorem rebuiltList_reverse :
    rebuiltList action l.reverse = (rebuiltList action l).reverse := by
  have hone : (List.reverse ∘ rebuilt action) = rebuilt action := by
    funext node
    cases haction : action node with
    | remove => rw [Function.comp_apply, rebuilt_of_remove haction, List.reverse_nil]
    | keepTree new => rw [Function.comp_apply, rebuilt_of_keepTree haction, List.reverse_singleton]
    | keepNode new => rw [Function.comp_apply, rebuilt_of_keepNode haction, List.reverse_singleton]
  rw [rebuiltList_eq_flatMap, rebuiltList_eq_flatMap, List.flatMap_reverse, hone]

def queueTrees (queue : List (Option Nat × Node H N V)) : List (Option Nat × Node H N W) :=
  queue.flatMap fun entry => (rebuilt action entry.2).map fun tree => (entry.1, tree)

theorem queueTrees_nil : queueTrees action ([] : List (Option Nat × Node H N V)) = [] := rfl

theorem queueTrees_cons (parent : Option Nat) (node : Node H N V)
    (queue : List (Option Nat × Node H N V)) :
    queueTrees action ((parent, node) :: queue) =
      (rebuilt action node).map (fun tree => (parent, tree)) ++ queueTrees action queue := by
  rw [queueTrees, List.flatMap_cons, ← queueTrees]

theorem queueTrees_append (queue queue' : List (Option Nat × Node H N V)) :
    queueTrees action (queue ++ queue') = queueTrees action queue ++ queueTrees action queue' := by
  rw [queueTrees, List.flatMap_append, ← queueTrees, ← queueTrees]

/-- Subtrees queued under one parent make trees under it. -/
theorem queueTrees_map (parent : Option Nat) (l : List (Node H N V)) :
    queueTrees action (l.map fun node => (parent, node)) =
      (rebuiltList action l).map fun tree => (parent, tree) := by
  induction l with
  | nil => rfl
  | cons node rest ih => rw [List.map_cons, queueTrees_cons, ih, rebuiltList, List.map_append]

theorem PointsBelow.queueTrees {k : Nat} {queue : List (Option Nat × Node H N V)}
    (h : PointsBelow k queue) : PointsBelow k (ForkTree.queueTrees action queue) := by
  intro e he i hi
  obtain ⟨entry, hentry, he⟩ := List.mem_flatMap.mp he
  obtain ⟨tree, -, rfl⟩ := List.mem_map.mp he
  exact h entry hentry i hi

end Rule

/-! ## A pass over a level -/

section Pass

variable {action : Node H N V → PassAction H N W} {parent : Option Nat} {node : Node H N V}
  {new : Node H N W} {rest : List (Option Nat × Node H N V)} {output : List (Option Nat × Node H N W)}
  {removed : List (Node H N V)} {next : List (Option Nat × Node H N V)}

theorem levelPass_remove (h : action node = .remove) :
    levelPass action ((parent, node) :: rest) (output, removed, next) =
      levelPass action rest (output, removed ++ [node], next) := by
  rw [levelPass, h]

theorem levelPass_keepTree (h : action node = .keepTree new) :
    levelPass action ((parent, node) :: rest) (output, removed, next) =
      levelPass action rest (output ++ [(parent, new)], removed, next) := by
  rw [levelPass, h]

theorem levelPass_keepNode (h : action node = .keepNode new) :
    levelPass action ((parent, node) :: rest) (output, removed, next) =
      levelPass action rest (output ++ [(parent, new)], removed,
        next ++ node.children.reverse.map fun child => (some output.length, child)) := by
  rw [levelPass, h]

/-- The children queued under the entry added last point into the output. -/
theorem pointsBelow_children {output : List (Option Nat × Node H N W)} {e : Option Nat × Node H N W}
    {next : List (Option Nat × Node H N V)} (h : PointsBelow output.length next)
    (children : List (Node H N V)) :
    PointsBelow (output ++ [e]).length
      (next ++ children.reverse.map fun child => (some output.length, child)) := by
  refine pointsBelow_append.mpr ⟨h.mono (by rw [List.length_append]; omega), ?_⟩
  intro entry hentry i hi
  obtain ⟨child, -, rfl⟩ := List.mem_map.mp hentry
  cases hi
  rw [List.length_append, List.length_singleton]
  exact Nat.lt_succ_self _

variable (action)

variable (queue : List (Option Nat × Node H N V))

/-- A pass adds to the output one entry for each tree made of its queue. -/
theorem levelPass_output :
    ∀ (output : List (Option Nat × Node H N W)) (removed : List (Node H N V))
      (next : List (Option Nat × Node H N V)),
      ∃ added, (levelPass action queue (output, removed, next)).1 = output ++ added ∧
        added.length = (queueTrees action queue).length := by
  induction queue with
  | nil =>
    intro output removed next
    exact ⟨[], (List.append_nil output).symm, rfl⟩
  | cons entry rest ih =>
    intro output removed next
    obtain ⟨parent, node⟩ := entry
    rw [queueTrees_cons]
    cases haction : action node with
    | remove =>
      rw [levelPass_remove haction, rebuilt_of_remove haction, List.map_nil, List.nil_append]
      exact ih output _ next
    | keepTree new =>
      obtain ⟨added, hadded, hlength⟩ := ih (output ++ [(parent, new)]) removed next
      refine ⟨(parent, new) :: added, ?_, ?_⟩
      · rw [levelPass_keepTree haction, hadded, List.append_assoc, List.singleton_append]
      · rw [rebuilt_of_keepTree haction, List.map_singleton, List.singleton_append, List.length_cons,
          List.length_cons, hlength]
    | keepNode new =>
      obtain ⟨added, hadded, hlength⟩ := ih (output ++ [(parent, new)]) removed
        (next ++ node.children.reverse.map fun child => (some output.length, child))
      refine ⟨(parent, new) :: added, ?_, ?_⟩
      · rw [levelPass_keepNode haction, hadded, List.append_assoc, List.singleton_append]
      · rw [rebuilt_of_keepNode haction, List.map_singleton, List.singleton_append, List.length_cons,
          List.length_cons, hlength]

/-- The next queue a pass leaves points into the output it leaves. -/
theorem levelPass_pointsBelow :
    ∀ (output : List (Option Nat × Node H N W)) (removed : List (Node H N V))
      (next : List (Option Nat × Node H N V)), PointsBelow output.length next →
      PointsBelow (levelPass action queue (output, removed, next)).1.length
        (levelPass action queue (output, removed, next)).2.2 := by
  induction queue with
  | nil =>
    intro output removed next h
    exact h
  | cons entry rest ih =>
    intro output removed next h
    obtain ⟨parent, node⟩ := entry
    cases haction : action node with
    | remove =>
      rw [levelPass_remove haction]
      exact ih output _ next h
    | keepTree new =>
      rw [levelPass_keepTree haction]
      exact ih _ removed next (h.mono (by rw [List.length_append]; omega))
    | keepNode new =>
      rw [levelPass_keepNode haction]
      exact ih _ removed _ (pointsBelow_children h node.children)

/-- Once the trees made of the next queue are placed, each entry a pass added holds the trees of its
children, in order. -/
theorem levelPass_fill (roots : List (Node H N W)) :
    ∀ (output : List (Option Nat × Node H N W)) (removed : List (Node H N V))
      (next : List (Option Nat × Node H N V)), PointsBelow output.length next →
      (queueTrees action (levelPass action queue (output, removed, next)).2.2).foldr place
          ((levelPass action queue (output, removed, next)).1, roots) =
        (((queueTrees action next).foldr place (output, roots)).1 ++ queueTrees action queue,
          ((queueTrees action next).foldr place (output, roots)).2) := by
  induction queue with
  | nil =>
    intro output removed next _
    rw [levelPass, queueTrees_nil, List.append_nil]
  | cons entry rest ih =>
    intro output removed next h
    obtain ⟨parent, node⟩ := entry
    rw [queueTrees_cons]
    cases haction : action node with
    | remove =>
      rw [levelPass_remove haction, rebuilt_of_remove haction, List.map_nil, List.nil_append]
      exact ih output _ next h
    | keepTree new =>
      rw [levelPass_keepTree haction, ih _ removed next (h.mono (by rw [List.length_append]; omega)),
        foldr_place_append [(parent, new)] roots (h.queueTrees action), rebuilt_of_keepTree haction,
        List.map_singleton, List.append_assoc, List.singleton_append]
    | keepNode new =>
      -- the children's trees go to the entry just added, which then goes after the output
      rw [levelPass_keepNode haction, ih _ removed _ (pointsBelow_children h node.children),
        queueTrees_append, List.foldr_append,
        queueTrees_map, rebuiltList_reverse, foldr_place_children,
        foldr_place_append _ roots (h.queueTrees action), rebuilt_of_keepNode haction,
        List.map_singleton, List.append_assoc, List.singleton_append]

/-- A pass queues its children in place of each node it keeps alone, so the next queue is smaller
by at least one node for each node of this one. -/
theorem levelPass_size :
    ∀ (output : List (Option Nat × Node H N W)) (removed : List (Node H N V))
      (next : List (Option Nat × Node H N V)),
      sizeList ((levelPass action queue (output, removed, next)).2.2.map Prod.snd) + queue.length ≤
        sizeList (next.map Prod.snd) + sizeList (queue.map Prod.snd) := by
  induction queue with
  | nil =>
    intro output removed next
    rw [levelPass, List.length_nil, List.map_nil, sizeList]
  | cons entry rest ih =>
    intro output removed next
    obtain ⟨parent, node⟩ := entry
    have hnode := size_eq node
    cases haction : action node with
    | remove =>
      have hrest := ih output (removed ++ [node]) next
      rw [levelPass_remove haction]
      simp only [List.map_cons, sizeList, List.length_cons] at hrest ⊢
      omega
    | keepTree new =>
      have hrest := ih (output ++ [(parent, new)]) removed next
      rw [levelPass_keepTree haction]
      simp only [List.map_cons, sizeList, List.length_cons] at hrest ⊢
      omega
    | keepNode new =>
      have hrest := ih (output ++ [(parent, new)]) removed
        (next ++ node.children.reverse.map fun child => (some output.length, child))
      rw [levelPass_keepNode haction]
      simp only [sizeList_eq_sum, List.map_append, List.sum_append, List.map_map, Function.comp_def,
        List.map_id', List.map_reverse, List.sum_reverse, List.map_cons, List.sum_cons,
        List.length_cons] at hrest hnode ⊢
      omega

/-- A pass removes, with what the next passes remove, what the passes remove of its queue. -/
theorem levelPass_removed :
    ∀ (output : List (Option Nat × Node H N W)) (removed : List (Node H N V))
      (next : List (Option Nat × Node H N V)),
      ((levelPass action queue (output, removed, next)).2.1 ++
          removedBelowList action ((levelPass action queue (output, removed, next)).2.2.map Prod.snd)).Perm
        (removed ++ removedBelowList action (queue.map Prod.snd) ++
          removedBelowList action (next.map Prod.snd)) := by
  induction queue with
  | nil =>
    intro output removed next
    rw [levelPass, List.map_nil, removedBelowList, List.append_nil]
  | cons entry rest ih =>
    intro output removed next
    obtain ⟨parent, node⟩ := entry
    rw [List.map_cons, removedBelowList]
    cases haction : action node with
    | remove =>
      rw [levelPass_remove haction, removedBelow_of_remove haction, ← List.append_assoc removed]
      exact ih output _ next
    | keepTree new =>
      rw [levelPass_keepTree haction, removedBelow_of_keepTree haction, List.nil_append]
      exact ih _ removed next
    | keepNode new =>
      rw [levelPass_keepNode haction]
      refine (ih _ removed _).trans ?_
      -- the children move from the queue to the next queue, in reverse
      have hreverse : (removedBelowList action node.children.reverse).Perm
          (removedBelowList action node.children) := by
        rw [removedBelowList_eq_flatMap, removedBelowList_eq_flatMap]
        exact (List.reverse_perm _).flatMap_right _
      simp only [removedBelow_of_keepNode haction, List.map_append, List.map_map, Function.comp_def,
        List.map_id', removedBelowList_append]
      rw [← Multiset.coe_eq_coe] at hreverse ⊢
      simp only [← Multiset.coe_add, hreverse]
      abel

end Pass

/-! ## The passes and the rebuild -/

section Passes

variable (action : Node H N V → PassAction H N W)

/-- Popping the passes' output from the last level up places the trees made of the queue: each
pass's entries are filled by the levels below first. -/
theorem levelPasses_rebuild (fuel : Nat) :
    ∀ (queue : List (Option Nat × Node H N V)) (output : List (Option Nat × Node H N W))
      (removed : List (Node H N V)), PointsBelow output.length queue →
      sizeList (queue.map Prod.snd) < fuel →
      ∃ added, (levelPasses action fuel queue output removed).1 = output ++ added ∧
        ∀ (more : Nat) (roots : List (Node H N W)),
          rebuild (added.length + more) (output ++ added) roots =
            rebuild more ((queueTrees action queue).foldr place (output, roots)).1
              ((queueTrees action queue).foldr place (output, roots)).2 := by
  induction fuel with
  | zero =>
    intro queue output removed _ hfuel
    exact absurd hfuel (Nat.not_lt_zero _)
  | succ fuel ih =>
    intro queue output removed hqueue hfuel
    cases queue with
    | nil =>
      refine ⟨[], by rw [levelPasses, List.append_nil], fun more roots => ?_⟩
      rw [List.length_nil, Nat.zero_add, List.append_nil, queueTrees_nil, List.foldr_nil]
    | cons entry queue =>
      rw [levelPasses]
      obtain ⟨here, hhere, hlength⟩ := levelPass_output action (entry :: queue) output removed []
      have hnext := levelPass_pointsBelow action (entry :: queue) output removed []
        fun _ he => by cases he
      have hsize := levelPass_size action (entry :: queue) output removed []
      have hfill := fun roots => levelPass_fill action (entry :: queue) roots output removed []
        (fun _ he => by cases he)
      simp only [List.map_nil, sizeList, queueTrees_nil, List.foldr_nil, List.length_cons]
        at hsize hfill
      generalize levelPass action (entry :: queue) (output, removed, []) = result
        at hhere hnext hsize hfill ⊢
      obtain ⟨output', removed', next⟩ := result
      dsimp only at hhere hnext hsize hfill ⊢
      -- the passes below this one fill its entries, and popping them places the queue's trees
      obtain ⟨below, hbelow, hrebuild⟩ := ih next output' removed' hnext (by omega)
      refine ⟨here ++ below, by rw [hbelow, hhere, List.append_assoc], fun more roots => ?_⟩
      rw [List.length_append, Nat.add_comm here.length, Nat.add_assoc, ← List.append_assoc, ← hhere,
        hrebuild, hfill roots, hlength,
        rebuild_block _ _ _ _ (hqueue.queueTrees action)]

/-- Rebuilding the output of the passes over a forest makes, in order, what the recursive rule
makes of it. -/
theorem rebuild_levelPasses (roots : List (Node H N V)) :
    rebuild (levelPasses action (sizeList roots + 1) (roots.reverse.map fun root => (none, root))
        [] []).1.length
      (levelPasses action (sizeList roots + 1) (roots.reverse.map fun root => (none, root))
        [] []).1 [] =
      rebuiltList action roots := by
  have hsize : sizeList ((roots.reverse.map fun root => ((none : Option Nat), root)).map Prod.snd) <
      sizeList roots + 1 := by
    simp only [List.map_map, Function.comp_def, List.map_id', sizeList_eq_sum, List.map_reverse,
      List.sum_reverse]
    omega
  obtain ⟨added, hadded, hrebuild⟩ := levelPasses_rebuild action (sizeList roots + 1)
    (roots.reverse.map fun root => (none, root)) [] [] (fun _ he i hi => by
      obtain ⟨root, -, rfl⟩ := List.mem_map.mp he
      cases hi) hsize
  have hall := hrebuild 0 []
  rw [Nat.add_zero, List.nil_append] at hall
  -- the roots' trees are placed last first, as roots
  rw [hadded, List.nil_append, hall, queueTrees_map, rebuiltList_reverse, foldr_place_roots,
    List.nil_append, rebuild]

/-- With fuel above the size of the queue, the passes remove what the recursive rule drops. -/
theorem levelPasses_removed (fuel : Nat) :
    ∀ (queue : List (Option Nat × Node H N V)) (output : List (Option Nat × Node H N W))
      (removed : List (Node H N V)), sizeList (queue.map Prod.snd) < fuel →
      (levelPasses action fuel queue output removed).2.Perm
        (removed ++ removedBelowList action (queue.map Prod.snd)) := by
  induction fuel with
  | zero =>
    intro queue output removed hfuel
    exact absurd hfuel (Nat.not_lt_zero _)
  | succ fuel ih =>
    intro queue output removed hfuel
    cases queue with
    | nil => rw [levelPasses, List.map_nil, removedBelowList, List.append_nil]
    | cons entry queue =>
      rw [levelPasses]
      have hsize := levelPass_size action (entry :: queue) output removed []
      have hperm := levelPass_removed action (entry :: queue) output removed []
      simp only [List.map_nil, sizeList, removedBelowList, List.append_nil, List.length_cons]
        at hsize hperm
      generalize levelPass action (entry :: queue) (output, removed, []) = result at hsize hperm ⊢
      obtain ⟨output', removed', next⟩ := result
      dsimp only at hsize hperm ⊢
      exact (ih next output' removed' (by omega)).trans hperm

end Passes

/-! ## `drain_filter` -/

section Drain

variable (filter : H → N → V → FilterAction)

def drainAction (node : Node H N V) : PassAction H N V :=
  match filter node.hash node.number node.data with
  | .keepNode => .keepNode { node with children := [] }
  | .keepTree => .keepTree node
  | .remove => .remove

theorem filterQueue_eq_levelPass (queue : List (Option Nat × Node H N V)) :
    ∀ acc, filterQueue filter queue acc = levelPass (drainAction filter) queue acc := by
  induction queue with
  | nil =>
    intro acc
    rw [filterQueue, levelPass]
  | cons entry rest ih =>
    rintro ⟨retained, removed, next⟩
    obtain ⟨parent, node⟩ := entry
    rw [filterQueue, levelPass, drainAction]
    cases filter node.hash node.number node.data with
    | remove => exact ih _
    | keepNode => exact ih _
    | keepTree => exact ih _

theorem filterLevels_eq_levelPasses (fuel : Nat) :
    ∀ (queue retained : List (Option Nat × Node H N V)) (removed : List (Node H N V)),
      filterLevels filter fuel queue retained removed =
        levelPasses (drainAction filter) fuel queue retained removed := by
  induction fuel with
  | zero =>
    intro queue retained removed
    rw [filterLevels, levelPasses]
  | succ fuel ih =>
    intro queue retained removed
    cases queue with
    | nil => rw [filterLevels, levelPasses]
    | cons entry queue => simp only [filterLevels, levelPasses, filterQueue_eq_levelPass, ih]

mutual
/-- The recursive rule of `drain_filter`: a removed node goes with its subtree, one kept whole keeps
it, one kept alone keeps what the rule keeps of its children. -/
def filtered : Node H N V → List (Node H N V)
  | ⟨blockHash, number, data, children⟩ =>
    match filter blockHash number data with
    | .remove => []
    | .keepTree => [⟨blockHash, number, data, children⟩]
    | .keepNode => [⟨blockHash, number, data, filteredList children⟩]

def filteredList : List (Node H N V) → List (Node H N V)
  | [] => []
  | node :: rest => filtered node ++ filteredList rest
end

mutual
def dropped : Node H N V → List (Node H N V)
  | ⟨blockHash, number, data, children⟩ =>
    match filter blockHash number data with
    | .remove => [⟨blockHash, number, data, children⟩]
    | .keepTree => []
    | .keepNode => droppedList children

def droppedList : List (Node H N V) → List (Node H N V)
  | [] => []
  | node :: rest => dropped node ++ droppedList rest
end

theorem droppedList_eq_flatMap (l : List (Node H N V)) :
    droppedList filter l = l.flatMap (dropped filter) := by
  induction l with
  | nil => rw [droppedList, List.flatMap_nil]
  | cons node rest ih => rw [droppedList, List.flatMap_cons, ih]

mutual
theorem rebuilt_drainAction :
    ∀ node : Node H N V, rebuilt (drainAction filter) node = filtered filter node
  | ⟨blockHash, number, data, children⟩ => by
    rw [rebuilt, filtered, drainAction]
    cases filter blockHash number data with
    | remove => rfl
    | keepTree => rfl
    | keepNode =>
      rw [rebuiltList_drainAction children]
      rfl

theorem rebuiltList_drainAction :
    ∀ l : List (Node H N V), rebuiltList (drainAction filter) l = filteredList filter l
  | [] => by rw [rebuiltList, filteredList]
  | node :: rest => by
    rw [rebuiltList, filteredList, rebuilt_drainAction node, rebuiltList_drainAction rest]
end

mutual
theorem removedBelow_drainAction :
    ∀ node : Node H N V, removedBelow (drainAction filter) node = dropped filter node
  | ⟨blockHash, number, data, children⟩ => by
    rw [removedBelow, dropped, drainAction]
    cases filter blockHash number data with
    | remove => rfl
    | keepTree => rfl
    | keepNode => exact removedBelowList_drainAction children

theorem removedBelowList_drainAction :
    ∀ l : List (Node H N V), removedBelowList (drainAction filter) l = droppedList filter l
  | [] => by rw [removedBelowList, droppedList]
  | node :: rest => by
    rw [removedBelowList, droppedList, removedBelow_drainAction node,
      removedBelowList_drainAction rest]
end

variable (t : ForkTree H N V)

/-- The passes of `drain_filter` from the roots remove, in some order, the rule's dropped
subtrees. -/
theorem filterLevels_removed :
    (filterLevels filter (sizeList t.roots + 1) (t.roots.reverse.map fun root => (none, root))
      [] []).2.Perm (droppedList filter t.roots) := by
  have hremoved := levelPasses_removed (drainAction filter) (sizeList t.roots + 1)
    (t.roots.reverse.map fun root => (none, root)) [] [] (by
      simp only [List.map_map, Function.comp_def, List.map_id', sizeList_eq_sum, List.map_reverse,
        List.sum_reverse]
      omega)
  rw [filterLevels_eq_levelPasses]
  simp only [List.map_map, Function.comp_def, List.map_id', List.nil_append,
    removedBelowList_drainAction] at hremoved
  refine hremoved.trans ?_
  rw [droppedList_eq_flatMap, droppedList_eq_flatMap]
  exact (List.reverse_perm _).flatMap_right _

/-- `drain_filter` leaves the forest of the recursive rule, rebalanced if it removed anything. -/
theorem drainFilter_eq :
    (t.drainFilter filter).1 =
      if (droppedList filter t.roots).isEmpty then ⟨filteredList filter t.roots, t.bestFinalizedNumber⟩
      else ForkTree.rebalance ⟨filteredList filter t.roots, t.bestFinalizedNumber⟩ := by
  have hroots := rebuild_levelPasses (drainAction filter) t.roots
  have hremoved := filterLevels_removed filter t
  rw [ForkTree.drainFilter, filterLevels_eq_levelPasses]
  rw [filterLevels_eq_levelPasses] at hremoved
  rw [rebuiltList_drainAction] at hroots
  generalize levelPasses (drainAction filter) (sizeList t.roots + 1)
    (t.roots.reverse.map fun root => (none, root)) [] [] = result at hroots hremoved ⊢
  obtain ⟨retained, removed⟩ := result
  dsimp only at hroots hremoved ⊢
  rw [hroots, hremoved.isEmpty_eq]

/-- The iterator `drain_filter` returns yields, in some order, the nodes of the rule's dropped
subtrees, each once. -/
theorem drainFilter_removed :
    (removedEntries (sizeList (t.drainFilter filter).2) (t.drainFilter filter).2).Perm
      (entriesList (droppedList filter t.roots)) := by
  have hremoved : (t.drainFilter filter).2.Perm (droppedList filter t.roots) := by
    rw [ForkTree.drainFilter]
    exact filterLevels_removed filter t
  exact (removedEntries_perm _ _ le_rfl).trans (entriesList_perm hremoved)

end Drain

/-! ## `map` -/

section Map

variable {VT : Type} (f : H → N → V → VT)

mutual
def Node.mapData : Node H N V → Node H N VT
  | ⟨blockHash, number, data, children⟩ =>
    ⟨blockHash, number, f blockHash number data, Node.mapDataList children⟩

def Node.mapDataList : List (Node H N V) → List (Node H N VT)
  | [] => []
  | node :: rest => node.mapData :: Node.mapDataList rest
end

mutual
theorem rebuilt_mapAction : ∀ node : Node H N V, rebuilt (mapAction f) node = [node.mapData f]
  | ⟨blockHash, number, data, children⟩ => by
    rw [rebuilt, mapAction, Node.mapData, rebuiltList_mapAction children]
    rfl

theorem rebuiltList_mapAction :
    ∀ l : List (Node H N V), rebuiltList (mapAction f) l = Node.mapDataList f l
  | [] => by rw [rebuiltList, Node.mapDataList]
  | node :: rest => by
    rw [rebuiltList, Node.mapDataList, rebuilt_mapAction node, rebuiltList_mapAction rest,
      List.singleton_append]
end

theorem mapDataList_eq_map : ∀ l : List (Node H N V), Node.mapDataList f l = l.map (Node.mapData f)
  | [] => by rw [Node.mapDataList, List.map_nil]
  | node :: rest => by rw [Node.mapDataList, List.map_cons, mapDataList_eq_map rest]

/-- `map` changes only the data: the same roots, hashes, numbers, children and order. -/
theorem map_eq (t : ForkTree H N V) :
    t.map f = ⟨t.roots.map (Node.mapData f), t.bestFinalizedNumber⟩ := by
  rw [ForkTree.map, rebuild_levelPasses, rebuiltList_mapAction, mapDataList_eq_map]

end Map

/-! ## `map` and `drain_filter` against the recursive rule -/

/-- `map` keeps the forest and maps each node's data; `drain_filter` leaves the recursive rule's
forest, rebalanced after a removal, and yields each node of the dropped subtrees once. -/
theorem map_and_drainFilter_follow_the_recursive_rule {VT : Type} (t : ForkTree H N V)
    (f : H → N → V → VT) (filter : H → N → V → FilterAction) :
    t.map f = ⟨t.roots.map (Node.mapData f), t.bestFinalizedNumber⟩ ∧
    (t.drainFilter filter).1 =
      (if (droppedList filter t.roots).isEmpty then ⟨filteredList filter t.roots, t.bestFinalizedNumber⟩
        else ForkTree.rebalance ⟨filteredList filter t.roots, t.bestFinalizedNumber⟩) ∧
    (removedEntries (sizeList (t.drainFilter filter).2) (t.drainFilter filter).2).Perm
      (entriesList (droppedList filter t.roots)) :=
  ⟨map_eq f t, drainFilter_eq filter t, drainFilter_removed filter t⟩

def threeRoots : ForkTree Nat Nat Nat :=
  ⟨[⟨1, 1, 10, []⟩, ⟨2, 1, 20, [⟨3, 2, 30, []⟩]⟩, ⟨4, 1, 40, []⟩], none⟩

/-- Removing the last root makes `drain_filter` rebalance: the deeper root moves first, where the
recursive rule keeps the roots in their order. -/
theorem drainFilter_reorders_the_roots :
    (threeRoots.drainFilter fun blockHash _ _ =>
        if blockHash = 4 then .remove else .keepTree).1.roots.map Node.header =
      [(2, 1, 20), (1, 1, 10)] ∧
    (filteredList (fun blockHash _ _ => if blockHash = 4 then FilterAction.remove else .keepTree)
        threeRoots.roots).map Node.header =
      [(1, 1, 10), (2, 1, 20)] := by
  decide

end Substrate.ForkTree
