import Substrate.Utils.ForkTreeAncestors

/-! # `finalizes_any_with_descendent_if` against `finalize_with_descendent_if`

One checks every node in pre-order, the other the roots. Over an exact fork tree the block's
ancestors all lie below one root (`roots_split`), which pre-order reaches first, so the two agree
(`finalizesAny_agrees_with_finalize`).
-/

namespace Substrate.ForkTree

open Ancestry Node

variable {H N V : Type} {t : ForkTree H N V} {roots : List (Node H N V)} {predicate : V → Bool}

/-! ## The nodes in pre-order -/

mutual
def Node.nodes : Node H N V → List (Node H N V)
  | ⟨blockHash, number, data, children⟩ =>
    ⟨blockHash, number, data, children⟩ :: Node.nodesList children

def Node.nodesList : List (Node H N V) → List (Node H N V)
  | [] => []
  | node :: rest => node.nodes ++ Node.nodesList rest
end

theorem nodes_eq (node : Node H N V) : node.nodes = node :: nodesList node.children := by
  obtain ⟨blockHash, number, data, children⟩ := node
  rw [Node.nodes]

theorem nodesList_append (l l' : List (Node H N V)) :
    nodesList (l ++ l') = nodesList l ++ nodesList l' := by
  induction l with
  | nil => rw [List.nil_append, nodesList, List.nil_append]
  | cons node rest ih => rw [List.cons_append, nodesList, nodesList, ih, List.append_assoc]

mutual
theorem nodes_map_header : ∀ node : Node H N V, node.nodes.map header = node.entries
  | ⟨blockHash, number, data, children⟩ => by
    rw [Node.nodes, List.map_cons, nodesList_map_header children, entries_mk, header_mk]

theorem nodesList_map_header :
    ∀ l : List (Node H N V), (nodesList l).map header = entriesList l
  | [] => by rw [nodesList, List.map_nil, entriesList]
  | node :: rest => by
    rw [nodesList, List.map_append, nodes_map_header node, nodesList_map_header rest, entriesList]
end

theorem header_mem_of_mem_nodesList {l : List (Node H N V)} {node : Node H N V}
    (h : node ∈ nodesList l) : node.header ∈ entriesList l := by
  rw [← nodesList_map_header]
  exact List.mem_map_of_mem h

theorem mem_nodesList {l : List (Node H N V)} {node : Node H N V} (h : node ∈ nodesList l) :
    ∃ root ∈ l, node ∈ root.nodes := by
  induction l with
  | nil =>
    rw [nodesList] at h
    cases h
  | cons root rest ih =>
    rw [nodesList, List.mem_append] at h
    rcases h with h | h
    · exact ⟨root, List.mem_cons_self, h⟩
    · obtain ⟨other, hother, h⟩ := ih h
      exact ⟨other, List.mem_cons_of_mem _ hother, h⟩

/-- With a round for each node, `node_iter` yields the nodes of its stack in pre-order, the last
subtree of the stack first. -/
theorem nodeIter_eq (fuel : Nat) :
    ∀ stack : List (Node H N V), sizeList stack ≤ fuel → nodeIter fuel stack = nodesList stack.reverse := by
  induction fuel with
  | zero =>
    intro stack h
    rw [eq_nil_of_sizeList_eq_zero (Nat.le_zero.mp h), nodeIter, List.reverse_nil, nodesList]
  | succ fuel ih =>
    intro stack h
    cases hlast : stack.getLast? with
    | none => rw [List.getLast?_eq_none_iff.mp hlast, nodeIter, List.getLast?_nil, List.reverse_nil,
        nodesList]
    | some node =>
      -- the last node is yielded, and its children take its place, first child last
      obtain ⟨rest, rfl⟩ := List.getLast?_eq_some_iff.mp hlast
      have hsize : sizeList (rest ++ node.children.reverse) ≤ fuel := by
        rw [sizeList_append, sizeList_perm (List.reverse_perm _)]
        rw [sizeList_append, sizeList, sizeList, size_eq] at h
        omega
      rw [nodeIter, hlast]
      dsimp only
      rw [List.dropLast_concat, ih _ hsize, List.reverse_append, List.reverse_reverse,
        List.reverse_append, List.reverse_singleton, List.singleton_append, nodesList, nodes_eq,
        nodesList_append, List.cons_append]

/-! ## Skipping the nodes the check passes over -/

section Skip

variable [DecidableEq H] [LinearOrder N] {hash : H} {number : N} {isDescendentOf : H → H → Bool}
  {predicate : V → Bool}

/-- The check passes over nodes that fail its test. -/
theorem findFinalizingNode_append (skipped : List (Node H N V))
    (hskip : ∀ node ∈ skipped,
      ¬(predicate node.data = true ∧ (node.hash = hash ∨ isDescendentOf node.hash hash = true)))
    (rest : List (Node H N V)) :
    findFinalizingNode hash number isDescendentOf predicate roots (skipped ++ rest) =
      findFinalizingNode hash number isDescendentOf predicate roots rest := by
  induction skipped with
  | nil => rw [List.nil_append]
  | cons node skipped ih =>
    rw [List.cons_append, findFinalizingNode, if_neg (hskip node List.mem_cons_self)]
    exact ih fun other hother => hskip other (List.mem_cons_of_mem _ hother)

/-- The search of `finalize_with_descendent_if` passes over roots that fail its test. -/
theorem findFinalizedRoot_append (skipped : List (Node H N V))
    (hskip : ∀ root ∈ skipped,
      ¬(predicate root.data = true ∧ (root.hash = hash ∨ isDescendentOf root.hash hash = true)))
    (rest : List (Node H N V)) (i : Nat) :
    findFinalizedRoot hash number isDescendentOf predicate i (skipped ++ rest) =
      findFinalizedRoot hash number isDescendentOf predicate (i + skipped.length) rest := by
  induction skipped generalizing i with
  | nil => rw [List.nil_append, List.length_nil, Nat.add_zero]
  | cons root skipped ih =>
    rw [List.cons_append, findFinalizedRoot, if_neg (hskip root List.mem_cons_self),
      ih (fun other hother => hskip other (List.mem_cons_of_mem _ hother)), List.length_cons,
      Nat.add_assoc, Nat.add_comm 1]

omit [DecidableEq H] [LinearOrder N] in
theorem finalizationResult_none_cases (changed : Bool) :
    finalizationResult (none : Option V) changed = .changed none ∨
      finalizationResult (none : Option V) changed = .unchanged := by
  cases changed with
  | false => exact .inr rfl
  | true => exact .inl rfl

/-- Without a root found, the finalization keeps the roots `retainsRoot` retains. -/
theorem finalizeWithDescendentIf_of_none
    (hrevert : (t.bestFinalizedNumber.map fun best => decide (number ≤ best)).getD false = false)
    (hfind : findFinalizedRoot hash number isDescendentOf predicate 0 t.roots = .ok none) :
    t.finalizeWithDescendentIf hash number isDescendentOf predicate =
      .ok (⟨t.roots.filter (retainsRoot hash number isDescendentOf), some number⟩,
        finalizationResult none
          (decide ((t.roots.filter (retainsRoot hash number isDescendentOf)).length ≠ t.roots.length))) := by
  rw [finalizeWithDescendentIf, hrevert, if_neg Bool.false_ne_true, hfind]
  rfl

/-- With a root found, the finalization finalizes it. -/
theorem finalizeWithDescendentIf_of_some {i : Nat} {root : Node H N V}
    (hrevert : (t.bestFinalizedNumber.map fun best => decide (number ≤ best)).getD false = false)
    (hfind : findFinalizedRoot hash number isDescendentOf predicate 0 t.roots = .ok (some i))
    (hroot : t.roots[i]? = some root) :
    t.finalizeWithDescendentIf hash number isDescendentOf predicate =
      .ok (⟨root.children.filter (retainsRoot hash number isDescendentOf), some number⟩,
        .changed (some root.data)) := by
  rw [finalizeWithDescendentIf, hrevert, if_neg Bool.false_ne_true, hfind]
  simp only [takeFinalized, Option.bind_some, hroot, finalizationResult]

/-- The search of `finalize_with_descendent_if` tests the roots only. -/
theorem findFinalizedRoot_congr {predicate' : V → Bool}
    (hsame : ∀ root ∈ roots, predicate root.data = predicate' root.data) (i : Nat) :
    findFinalizedRoot hash number isDescendentOf predicate i roots =
      findFinalizedRoot hash number isDescendentOf predicate' i roots := by
  induction roots generalizing i with
  | nil => rfl
  | cons root rest ih =>
    rw [findFinalizedRoot, findFinalizedRoot, hsame root List.mem_cons_self,
      ih (fun other hother => hsame other (List.mem_cons_of_mem _ hother))]

theorem finalizeWithDescendentIf_congr {predicate' : V → Bool}
    (hsame : ∀ root ∈ t.roots, predicate root.data = predicate' root.data) :
    t.finalizeWithDescendentIf hash number isDescendentOf predicate =
      t.finalizeWithDescendentIf hash number isDescendentOf predicate' := by
  rw [finalizeWithDescendentIf, finalizeWithDescendentIf, findFinalizedRoot_congr hsame]

/-- The root the search finds passes its test. -/
theorem findFinalizedRoot_eq_some {i j : Nat}
    (h : findFinalizedRoot hash number isDescendentOf predicate i roots = .ok (some j)) :
    i ≤ j ∧ ∃ root, roots[j - i]? = some root ∧ predicate root.data = true ∧
      (root.hash = hash ∨ isDescendentOf root.hash hash = true) := by
  induction roots generalizing i with
  | nil => cases h
  | cons root rest ih =>
    rw [findFinalizedRoot] at h
    split at h
    · rename_i hpass
      split at h
      · cases h
      · cases h
        exact ⟨le_rfl, root, by rw [Nat.sub_self, List.getElem?_cons_zero], hpass⟩
    · obtain ⟨hle, found, hfound, hpass⟩ := ih h
      refine ⟨by omega, found, ?_, hpass⟩
      rw [show j - i = j - (i + 1) + 1 by omega, List.getElem?_cons_succ]
      exact hfound

/-- The root a finalization finalizes passes its test, and the block is it or descends from it. -/
theorem finalizeWithDescendentIf_changed_passes {t' : ForkTree H N V} {data : V}
    (hfinal : t.finalizeWithDescendentIf hash number isDescendentOf predicate =
      .ok (t', .changed (some data))) :
    ∃ root ∈ t.roots, root.data = data ∧ predicate root.data = true ∧
      (root.hash = hash ∨ isDescendentOf root.hash hash = true) := by
  obtain ⟨position, hfind, -⟩ := finalizeWithDescendentIf_ok hfinal
  rw [finalizeWithDescendentIf, hfind] at hfinal
  split at hfinal
  · cases hfinal
  cases position with
  | none =>
    simp only [takeFinalized, Option.bind_none, Except.ok.injEq, Prod.mk.injEq] at hfinal
    exact absurd hfinal.2 (finalizationResult_none _)
  | some i =>
    obtain ⟨-, root, hroot, hpass⟩ := findFinalizedRoot_eq_some hfind
    rw [Nat.sub_zero] at hroot
    simp only [takeFinalized, Option.bind_some, hroot, finalizationResult, Except.ok.injEq,
      Prod.mk.injEq, FinalizationResult.changed.injEq, Option.some.injEq] at hfinal
    exact ⟨root, List.mem_of_getElem? hroot, hfinal.2, hpass⟩

end Skip

/-! ## The block's branch in an exact forest -/

section Branch

variable [LinearOrder N] {B : BlockTree H N}

theorem SeparatedList.apart_of_mem {pre post : List (Node H N V)} {root other : Node H N V}
    (h : SeparatedList B (pre ++ root :: post)) (hother : other ∈ pre ++ post) :
    Apart B other root := by
  have hpair := (separatedList_iff.mp h).2
  rw [List.pairwise_append, List.pairwise_cons] at hpair
  rcases List.mem_append.mp hother with hother | hother
  · exact hpair.2.2 other hother root List.mem_cons_self
  · exact (hpair.2.1.1 other hother).symm

/-- In an exact forest at most one root is the block or one of its ancestors. -/
theorem roots_split (hexact : Exact B roots) (hash : H) :
    (∀ root ∈ roots, ¬B.AncestorOrSelf root.hash hash) ∨
      ∃ pre root post, roots = pre ++ root :: post ∧ B.AncestorOrSelf root.hash hash ∧
        ∀ other ∈ pre ++ post, ¬B.AncestorOrSelf other.hash hash := by
  by_cases hsome : ∃ root ∈ roots, B.AncestorOrSelf root.hash hash
  · right
    obtain ⟨root, hroot, hanc⟩ := hsome
    obtain ⟨pre, post, rfl⟩ := List.append_of_mem hroot
    refine ⟨pre, root, post, rfl, hanc, fun other hother => ?_⟩
    have hapart := (Exact.separatedList _ hexact).apart_of_mem hother
    exact (hapart other.header (header_mem_entries other) root.header
      (header_mem_entries root)).symm.not_both_ancestorOrSelf hanc
  · left
    intro root hroot hanc
    exact hsome ⟨root, hroot, hanc⟩

/-- A subtree whose root is not the block or one of its ancestors has no node that is. -/
theorem not_ancestorOrSelf_of_mem_nodes {root node : Node H N V} {hash : H}
    (hedges : root.Edges fun parent child => B.isDescendentOf parent.1 child.1 = true)
    (hroot : ¬B.AncestorOrSelf root.hash hash) (hnode : node ∈ root.nodes) :
    ¬B.AncestorOrSelf node.hash hash := by
  intro hanc
  have hmem : node.header ∈ root.entries := by
    rw [← nodes_map_header]
    exact List.mem_map_of_mem hnode
  exact hroot ((entries_descend root hedges _ hmem).trans hanc)

variable [DecidableEq H]

/-- No node strictly below a root of an exact forest has the hash of a root. -/
theorem any_root_eq_false (hexact : Exact B roots)
    {root node : Node H N V} (hroot : root ∈ roots) (hnode : node ∈ nodesList root.children) :
    (roots.any fun other => decide (other.hash = node.hash)) = false := by
  have hedges := edgesList_iff.mp (Exact.edgesList _ hexact) root hroot
  have hbelow : B.isDescendentOf root.hash node.hash = true :=
    isDescendentOf_of_mem_entriesList_children hedges (header_mem_of_mem_nodesList hnode)
  have hentry : node.header ∈ root.entries := by
    rw [entries_eq]
    exact List.mem_cons_of_mem _ (header_mem_of_mem_nodesList hnode)
  obtain ⟨pre, post, hsplit⟩ := List.append_of_mem hroot
  rw [List.any_eq_false]
  intro other hother heq
  rw [decide_eq_true_iff] at heq
  rw [hsplit, List.mem_append, List.mem_cons, or_left_comm, ← List.mem_append] at hother
  rcases hother with rfl | hother
  · -- the root itself: a node below it does not share its hash
    rw [heq, B.irrefl] at hbelow
    cases hbelow
  · -- another root is on a fork apart from every node below this one
    have hapart := (hsplit ▸ Exact.separatedList _ hexact).apart_of_mem hother
    exact (hapart other.header (header_mem_entries other) node.header hentry).1 heq

/-- A finalization at the block keeps every root with a descendant of the block below it. -/
theorem mem_entriesList_filter_retainsRoot (hexact : Exact B roots)
    {hash : H} {e : H × N × V} (he : e ∈ entriesList roots)
    (hdesc : B.isDescendentOf hash e.1 = true) :
    e ∈ entriesList (roots.filter (retainsRoot hash (B.height hash) B.isDescendentOf)) := by
  obtain ⟨root, hroot, he⟩ := mem_entriesList.mp he
  have hedges := edgesList_iff.mp (Exact.edgesList _ hexact) root hroot
  have hheight : root.number = B.height root.hash :=
    hexact.heights _ (entries_subset_entriesList hroot (header_mem_entries root))
  refine mem_entriesList.mpr ⟨root, List.mem_filter.mpr ⟨hroot, ?_⟩, he⟩
  rw [retainsRoot, Bool.or_eq_true, Bool.or_eq_true, Bool.and_eq_true, Bool.and_eq_true,
    decide_eq_true_iff, decide_eq_true_iff, decide_eq_true_iff, hheight]
  -- the root and the block are both ancestors of the entry, so one is an ancestor of the other
  rcases BlockTree.ancestorOrSelf_total (entries_descend root hedges e he) hdesc with
    heq | hbelow | habove
  · exact .inl (.inr ⟨by rw [heq], heq⟩)
  · exact .inr hbelow
  · exact .inl (.inl ⟨B.height_lt habove, habove⟩)

end Branch

/-! ## The check and the finalization -/

section Agree

variable [LinearOrder N] [DecidableEq H]

omit [DecidableEq H] in
/-- A block after the best finalized number does not revert. -/
theorem not_reverted {number : N}
    (hbest : ∀ best, t.bestFinalizedNumber = some best → best < number) :
    (t.bestFinalizedNumber.map fun best => decide (number ≤ best)).getD false = false := by
  cases hb : t.bestFinalizedNumber with
  | none => rfl
  | some best =>
    rw [Option.map_some, Option.getD_some, decide_eq_false_iff_not, not_le]
    exact hbest best hb

/-- A node the check decides at passes its test, and the answer is whether it is a root. -/
theorem findFinalizingNode_some {hash : H} {number : N} {isDescendentOf : H → H → Bool}
    {answer : Bool} :
    ∀ {nodes : List (Node H N V)},
      findFinalizingNode hash number isDescendentOf predicate roots nodes = .ok (some answer) →
      ∃ node ∈ nodes, (predicate node.data = true ∧ (node.hash = hash ∨ isDescendentOf node.hash hash = true)) ∧
        answer = roots.any fun root => decide (root.hash = node.hash)
  | [], h => by cases h
  | node :: nodes, h => by
    rw [findFinalizingNode] at h
    by_cases hpass : predicate node.data = true ∧ (node.hash = hash ∨ isDescendentOf node.hash hash = true)
    · rw [if_pos hpass] at h
      split at h
      · cases h
      · rw [Except.ok.injEq, Option.some.injEq] at h
        exact ⟨node, List.mem_cons_self, hpass, h.symm⟩
    · rw [if_neg hpass] at h
      obtain ⟨found, hfound, hpass', hanswer⟩ := findFinalizingNode_some h
      exact ⟨found, List.mem_cons_of_mem _ hfound, hpass', hanswer⟩

variable (B : BlockTree H N)

/-- How `finalizes_any_with_descendent_if` should agree with `finalize_with_descendent_if`: fail
where it fails for an ancestor, report a finalized root exactly when it finalizes one, and otherwise
only prune. -/
structure CheckAgrees (t : ForkTree H N V) (hash : H) (predicate : V → Bool) : Prop where
  unfinalizedAncestor :
    t.finalizeWithDescendentIf hash (B.height hash) B.isDescendentOf predicate =
        .error .unfinalizedAncestor →
      t.finalizesAnyWithDescendentIf hash (B.height hash) B.isDescendentOf predicate =
        .error .unfinalizedAncestor
  finalizesRoot :
    t.finalizesAnyWithDescendentIf hash (B.height hash) B.isDescendentOf predicate = .ok (some true) ↔
      ∃ root ∈ t.roots, predicate root.data = true ∧ B.AncestorOrSelf root.hash hash ∧
        ∃ t', t.finalizeWithDescendentIf hash (B.height hash) B.isDescendentOf predicate =
          .ok (t', .changed (some root.data))
  keepsDescendants :
    (t.finalizesAnyWithDescendentIf hash (B.height hash) B.isDescendentOf predicate = .ok (some false) ∨
        t.finalizesAnyWithDescendentIf hash (B.height hash) B.isDescendentOf predicate = .ok none) →
      ∃ t' r, t.finalizeWithDescendentIf hash (B.height hash) B.isDescendentOf predicate = .ok (t', r) ∧
        (r = .changed none ∨ r = .unchanged) ∧
        ∀ e ∈ entriesList t.roots, B.isDescendentOf hash e.1 = true → e ∈ entriesList t'.roots

variable {B}

/-- The check runs over the nodes in pre-order. -/
theorem finalizesAny_eq {hash : H} {number : N}
    {isDescendentOf : H → H → Bool}
    (hbest : ∀ best, t.bestFinalizedNumber = some best → best < number) :
    t.finalizesAnyWithDescendentIf hash number isDescendentOf predicate =
      findFinalizingNode hash number isDescendentOf predicate t.roots (nodesList t.roots) := by
  rw [finalizesAnyWithDescendentIf, not_reverted hbest, if_neg Bool.false_ne_true,
    nodeIter_eq _ _ (sizeList_perm (List.reverse_perm _)).le, List.reverse_reverse]

/-- A finalization that finds no root prunes at most, and keeps the block's descendants. -/
theorem keeps_of_none (hexact : Exact B t.roots) {hash : H}
    (hrevert : (t.bestFinalizedNumber.map fun best => decide (B.height hash ≤ best)).getD false = false)
    (hfind : findFinalizedRoot hash (B.height hash) B.isDescendentOf predicate 0 t.roots = .ok none) :
    ∃ t' r, t.finalizeWithDescendentIf hash (B.height hash) B.isDescendentOf predicate = .ok (t', r) ∧
      (r = .changed none ∨ r = .unchanged) ∧
      ∀ e ∈ entriesList t.roots, B.isDescendentOf hash e.1 = true → e ∈ entriesList t'.roots :=
  ⟨_, _, finalizeWithDescendentIf_of_none hrevert hfind, finalizationResult_none_cases _,
    fun _ he hdesc => mem_entriesList_filter_retainsRoot hexact he hdesc⟩

/-- With no root on the block's branch, neither the check nor the finalization finds anything. -/
theorem checkAgrees_off_branch (hexact : Exact B t.roots) {hash : H}
    {predicate : V → Bool} (hbest : ∀ best, t.bestFinalizedNumber = some best → best < B.height hash)
    (hnone : ∀ root ∈ t.roots, ¬B.AncestorOrSelf root.hash hash) :
    CheckAgrees B t hash predicate := by
  have hrevert := not_reverted hbest
  have hfind : findFinalizedRoot hash (B.height hash) B.isDescendentOf predicate 0 t.roots = .ok none := by
    have hskip : findFinalizedRoot hash (B.height hash) B.isDescendentOf predicate 0 (t.roots ++ []) =
        findFinalizedRoot hash (B.height hash) B.isDescendentOf predicate (0 + t.roots.length) [] :=
      findFinalizedRoot_append t.roots (fun root hroot hpass => hnone root hroot hpass.2) [] 0
    rw [List.append_nil] at hskip
    rw [hskip, findFinalizedRoot]
  -- no node below an off-branch root is on the branch either
  have hfound : findFinalizingNode hash (B.height hash) B.isDescendentOf predicate t.roots
      (nodesList t.roots) = .ok none := by
    have hskip : findFinalizingNode hash (B.height hash) B.isDescendentOf predicate t.roots
        (nodesList t.roots ++ []) =
        findFinalizingNode hash (B.height hash) B.isDescendentOf predicate t.roots [] :=
      findFinalizingNode_append (nodesList t.roots) (fun node hnode hpass => by
        obtain ⟨root, hroot, hnode⟩ := mem_nodesList hnode
        exact not_ancestorOrSelf_of_mem_nodes (edgesList_iff.mp (Exact.edgesList _ hexact) root hroot)
          (hnone root hroot) hnode hpass.2) []
    rw [List.append_nil] at hskip
    rw [hskip, findFinalizingNode]
  refine ⟨fun h => ?_, ⟨fun h => ?_, ?_⟩, fun _ => keeps_of_none hexact hrevert hfind⟩
  · rw [finalizeWithDescendentIf_of_none hrevert hfind] at h
    cases h
  · rw [finalizesAny_eq hbest, hfound] at h
    cases h
  · rintro ⟨root, hroot, -, hanc, -⟩
    exact absurd hanc (hnone root hroot)

/-- With a root on the block's branch, the check reaches it first and decides there as the
finalization does; otherwise neither finds a root. -/
theorem checkAgrees_on_branch (hexact : Exact B t.roots) {hash : H}
    {predicate : V → Bool} (hbest : ∀ best, t.bestFinalizedNumber = some best → best < B.height hash)
    {pre post : List (Node H N V)} {root : Node H N V} (hsplit : t.roots = pre ++ root :: post)
    (hanc : B.AncestorOrSelf root.hash hash)
    (hothers : ∀ other ∈ pre ++ post, ¬B.AncestorOrSelf other.hash hash) :
    CheckAgrees B t hash predicate := by
  have hrevert := not_reverted hbest
  have hcheck : t.finalizesAnyWithDescendentIf hash (B.height hash) B.isDescendentOf predicate =
      findFinalizingNode hash (B.height hash) B.isDescendentOf predicate t.roots (nodesList t.roots) :=
    finalizesAny_eq hbest
  obtain ⟨roots, best⟩ := t
  dsimp only at hsplit hexact hrevert hcheck ⊢
  subst hsplit
  have hroot : root ∈ pre ++ root :: post := List.mem_append_right _ List.mem_cons_self
  have hedges := edgesList_iff.mp (Exact.edgesList _ hexact)
  -- the search and the check pass over the roots before it, and over the nodes below them
  have hfind : findFinalizedRoot hash (B.height hash) B.isDescendentOf predicate 0 (pre ++ root :: post) =
      findFinalizedRoot hash (B.height hash) B.isDescendentOf predicate (0 + pre.length) (root :: post) :=
    findFinalizedRoot_append pre
      (fun other hother hpass => hothers other (List.mem_append_left _ hother) hpass.2) _ 0
  rw [nodesList_append, nodesList, nodes_eq, List.cons_append,
    findFinalizingNode_append (nodesList pre) (fun node hnode hpass => by
      obtain ⟨other, hother, hnode⟩ := mem_nodesList hnode
      exact not_ancestorOrSelf_of_mem_nodes (hedges other (List.mem_append_left _ hother))
        (hothers other (List.mem_append_left _ hother)) hnode hpass.2)] at hcheck
  rw [Nat.zero_add] at hfind
  by_cases hpred : predicate root.data = true
  · have hpass : predicate root.data = true ∧ (root.hash = hash ∨ B.isDescendentOf root.hash hash = true) :=
      ⟨hpred, hanc⟩
    rw [findFinalizedRoot, if_pos hpass] at hfind
    rw [findFinalizingNode, if_pos hpass] at hcheck
    by_cases hchild : (root.children.any fun child => decide (child.number ≤ B.height hash) &&
        (decide (child.hash = hash) || B.isDescendentOf child.hash hash)) = true
    · -- a child is the block or its ancestor: both fail
      rw [if_pos hchild] at hfind hcheck
      have hfinal : (ForkTree.mk (pre ++ root :: post) best).finalizeWithDescendentIf hash (B.height hash)
          B.isDescendentOf predicate = .error .unfinalizedAncestor := by
        rw [finalizeWithDescendentIf]
        dsimp only
        rw [hrevert, if_neg Bool.false_ne_true, hfind]
      refine ⟨fun _ => hcheck, ⟨fun h => ?_, ?_⟩, fun h => ?_⟩
      · rw [hcheck] at h
        cases h
      · rintro ⟨_, _, _, _, t', h⟩
        rw [hfinal] at h
        cases h
      · rcases h with h | h <;> (rw [hcheck] at h; cases h)
    · -- both finalize the root
      rw [if_neg hchild] at hfind hcheck
      have hat : (pre ++ root :: post)[pre.length]? = some root := by
        rw [List.getElem?_append_right le_rfl, Nat.sub_self, List.getElem?_cons_zero]
      have hfinal := finalizeWithDescendentIf_of_some (t := ⟨pre ++ root :: post, best⟩) hrevert hfind hat
      have hany : ((pre ++ root :: post).any fun other => decide (other.hash = root.hash)) = true :=
        List.any_eq_true.mpr ⟨root, hroot, decide_eq_true rfl⟩
      rw [hany] at hcheck
      refine ⟨fun h => ?_, ⟨fun _ => ⟨root, hroot, hpred, hanc, _, hfinal⟩, fun _ => hcheck⟩, fun h => ?_⟩
      · rw [hfinal] at h
        cases h
      · rcases h with h | h <;> (rw [hcheck] at h; cases h)
  · -- the root fails the predicate: the search finds nothing, and the check decides below it
    have hfail : ¬(predicate root.data = true ∧ (root.hash = hash ∨ B.isDescendentOf root.hash hash = true)) :=
      fun hpass => hpred hpass.1
    have hpost : findFinalizedRoot hash (B.height hash) B.isDescendentOf predicate (pre.length + 1)
        post = .ok none := by
      have hskip : findFinalizedRoot hash (B.height hash) B.isDescendentOf predicate (pre.length + 1)
          (post ++ []) = findFinalizedRoot hash (B.height hash) B.isDescendentOf predicate
            (pre.length + 1 + post.length) [] :=
        findFinalizedRoot_append post
          (fun other hother hpass => hothers other (List.mem_append_right _ hother) hpass.2) [] _
      rw [List.append_nil] at hskip
      rw [hskip, findFinalizedRoot]
    rw [findFinalizedRoot, if_neg hfail, hpost] at hfind
    rw [findFinalizingNode, if_neg hfail] at hcheck
    have hnotRoot : findFinalizingNode hash (B.height hash) B.isDescendentOf predicate (pre ++ root :: post)
        (nodesList root.children ++ nodesList post) ≠ .ok (some true) := by
      intro h
      obtain ⟨node, hnode, hpass, hanswer⟩ := findFinalizingNode_some h
      rcases List.mem_append.mp hnode with hnode | hnode
      · rw [any_root_eq_false hexact hroot hnode] at hanswer
        cases hanswer
      · obtain ⟨other, hother, hnode⟩ := mem_nodesList hnode
        exact not_ancestorOrSelf_of_mem_nodes (hedges other (List.mem_append_right _
          (List.mem_cons_of_mem _ hother))) (hothers other (List.mem_append_right _ hother)) hnode hpass.2
    have hkeeps := keeps_of_none (t := ⟨pre ++ root :: post, best⟩) hexact hrevert hfind
    refine ⟨fun h => ?_, ⟨fun h => absurd (hcheck ▸ h) hnotRoot, ?_⟩, fun _ => hkeeps⟩
    · rw [finalizeWithDescendentIf_of_none hrevert hfind] at h
      cases h
    · -- the only root on the branch fails the predicate
      rintro ⟨other, hother, hpred', hanc', -⟩
      rcases List.mem_append.mp hother with hother | hother
      · exact (hothers other (List.mem_append_left _ hother) hanc').elim
      · rcases List.mem_cons.mp hother with rfl | hother
        · exact (hpred hpred').elim
        · exact (hothers other (List.mem_append_right _ hother) hanc').elim

/-- Over an exact fork tree, with the block's true number after the best finalized one,
`finalizes_any_with_descendent_if` agrees with `finalize_with_descendent_if`. -/
theorem finalizesAny_agrees_with_finalize (B : BlockTree H N) (t : ForkTree H N V)
    (hexact : Exact B t.roots) (hash : H) (predicate : V → Bool)
    (hbest : ∀ best, t.bestFinalizedNumber = some best → best < B.height hash) :
    CheckAgrees B t hash predicate := by
  rcases roots_split hexact hash with hnone | ⟨pre, root, post, hsplit, hanc, hothers⟩
  · exact checkAgrees_off_branch hexact hbest hnone
  · exact checkAgrees_on_branch hexact hbest hsplit hanc hothers

theorem finalizesAny_agrees_in_one_branch :
    Exact BlockTree.chain oneBranch.roots ∧
    (∀ best, oneBranch.bestFinalizedNumber = some best → best < BlockTree.chain.height 3) ∧
    CheckAgrees BlockTree.chain oneBranch 3 fun data => decide (data ≤ 10) := by
  have hexact : Exact BlockTree.chain oneBranch.roots := ⟨by decide, by decide, by decide⟩
  have hbest : ∀ best, oneBranch.bestFinalizedNumber = some best → best < BlockTree.chain.height 3 :=
    fun best hbest => by cases hbest
  exact ⟨hexact, hbest, finalizesAny_agrees_with_finalize BlockTree.chain oneBranch hexact 3
    (fun data => decide (data ≤ 10)) hbest⟩

end Agree

end Substrate.ForkTree
