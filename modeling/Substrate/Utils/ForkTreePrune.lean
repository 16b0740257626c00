import Substrate.Utils.ForkTreeSearch

/-! # What `prune` keeps and what it removes

`prune` re-roots the forest at the deepest ancestor of the block that passes the predicate. In an
exact fork tree it keeps exactly the new root, the ancestors below it, the block and its
descendants (`keptByPrune`).
-/

namespace Substrate.ForkTree

open Ancestry Node

variable {H N V : Type} {nodes l : List (Node H N V)} {node found child : Node H N V} {path : List Nat}
  {i : Nat} {e : H × N × V}

/-! ## Entries of a forest taken apart -/

theorem sizeList_append (l l' : List (Node H N V)) :
    sizeList (l ++ l') = sizeList l + sizeList l' := by
  rw [sizeList_eq_sum, sizeList_eq_sum, sizeList_eq_sum, List.map_append, List.sum_append]

theorem eq_nil_of_sizeList_eq_zero (h : sizeList l = 0) : l = [] := by
  cases l with
  | nil => rfl
  | cons node rest =>
    rw [sizeList, size_eq] at h
    omega

/-- Filtering the entries of a forest by a test that each tree passes or fails whole is filtering
the trees. -/
theorem entriesList_filter (p : H × N × V → Bool) (q : Node H N V → Bool) :
    ∀ l : List (Node H N V), (∀ node ∈ l, ∀ e ∈ node.entries, p e = q node) →
      (entriesList l).filter p = entriesList (l.filter q)
  | [], _ => rfl
  | node :: rest, h => by
    have hrest := entriesList_filter p q rest fun node' hnode' =>
      h node' (List.mem_cons_of_mem _ hnode')
    rw [entriesList, List.filter_append, hrest, List.filter_cons]
    by_cases hq : q node = true
    · rw [if_pos hq, entriesList, List.filter_eq_self.mpr fun e he =>
        (h node List.mem_cons_self e he).trans hq]
    · rw [if_neg hq, List.filter_eq_nil_iff.mpr fun e he hp =>
        hq ((h node List.mem_cons_self e he).symm.trans hp), List.nil_append]

/-- The removed iterator, given a step for each node of its stack, yields every entry of the
stack's subtrees once. -/
theorem removedEntries_perm : ∀ (fuel : Nat) (stack : List (Node H N V)), sizeList stack ≤ fuel →
    (removedEntries fuel stack).Perm (entriesList stack)
  | 0, stack, hfuel => by
    rw [eq_nil_of_sizeList_eq_zero (Nat.le_zero.mp hfuel), removedEntries, entriesList]
  | fuel + 1, stack, hfuel => by
    cases hlast : stack.getLast? with
    | none =>
      rw [List.getLast?_eq_none_iff.mp hlast, removedEntries, entriesList]
      exact .nil
    | some node =>
      -- the last subtree is taken apart: its node yielded, its children pushed
      obtain ⟨rest, rfl⟩ := List.getLast?_eq_some_iff.mp hlast
      rw [removedEntries, hlast, List.dropLast_concat]
      have hsize : sizeList (rest ++ node.children.reverse) ≤ fuel := by
        rw [sizeList_append, sizeList, sizeList, size_eq] at hfuel
        rw [sizeList_append, sizeList_eq_sum node.children.reverse, List.map_reverse,
          List.sum_reverse, ← sizeList_eq_sum]
        omega
      have hrest := removedEntries_perm fuel _ hsize
      rw [entriesList_append] at hrest
      rw [entriesList_append, entriesList, entriesList, List.append_nil, entries_eq]
      refine ((hrest.trans ((entriesList_perm (List.reverse_perm _)).append_left _)).cons _).trans ?_
      exact List.perm_middle.symm

theorem entriesList_eq_around (h : nodes[i]? = some node) :
    entriesList nodes =
      entriesList (nodes.take i) ++ node.entries ++ entriesList (nodes.drop (i + 1)) := by
  obtain ⟨hi, hnode⟩ := List.getElem?_eq_some_iff.mp h
  conv_lhs => rw [← List.take_append_drop i nodes, List.drop_eq_getElem_cons hi, hnode]
  rw [entriesList_append, entriesList, List.append_assoc]

theorem entriesList_modify_perm
    (h : nodes[i]? = some node) (g : Node H N V → Node H N V) (extra : List (H × N × V))
    (hg : ((g node).entries ++ extra).Perm node.entries) :
    (entriesList (nodes.modify i g) ++ extra).Perm (entriesList nodes) := by
  obtain ⟨hi, hnode⟩ := List.getElem?_eq_some_iff.mp h
  rw [entriesList_eq_around h, List.modify_eq_take_cons_drop hi, hnode, entriesList_append,
    entriesList]
  simp only [List.append_assoc]
  refine List.Perm.append_left _ ((List.perm_append_comm.append_left _).trans ?_)
  rw [← List.append_assoc]
  exact hg.append_right _

/-- Detaching a tree from its siblings, at a path that leads to them, takes its entries out of the
forest. -/
theorem entriesList_updateAt_eraseIdx {last : Nat} {root : Node H N V} :
    ∀ (path : List Nat) {nodes siblings : List (Node H N V)},
      childrenAt nodes path = some siblings → siblings[last]? = some root →
      (entriesList (updateAt (fun siblings => siblings.eraseIdx last) nodes path) ++
        root.entries).Perm (entriesList nodes)
  | [], nodes, siblings, hsiblings, hroot => by
    rw [childrenAt, Option.some.injEq] at hsiblings
    subst hsiblings
    obtain ⟨hi, hnode⟩ := List.getElem?_eq_some_iff.mp hroot
    rw [updateAt, entriesList_eq_around hroot, List.eraseIdx_eq_take_drop_succ, entriesList_append,
      List.append_assoc, List.append_assoc]
    exact (List.perm_append_comm.append_left _)
  | i :: path, nodes, siblings, hsiblings, hroot => by
    rw [childrenAt] at hsiblings
    cases hnode : nodes[i]? with
    | none =>
      rw [hnode] at hsiblings
      cases hsiblings
    | some node =>
      rw [hnode, Option.bind_some] at hsiblings
      rw [updateAt]
      refine entriesList_modify_perm hnode _ _ ?_
      have hentries : ({ node with
          children := (updateAt (fun siblings => siblings.eraseIdx last) node.children path) } :
            Node H N V).entries =
          node.header :: entriesList (updateAt (fun siblings => siblings.eraseIdx last)
            node.children path) :=
        entries_eq _
      rw [hentries, entries_eq node, List.cons_append]
      exact (entriesList_updateAt_eraseIdx path hsiblings hroot).cons _

/-! ## Subtrees of an exact forest -/

theorem entries_sublist_entriesList :
    ∀ {l : List (Node H N V)}, node ∈ l → node.entries.Sublist (entriesList l)
  | [], h => by cases h
  | head :: rest, h => by
    rw [entriesList]
    rcases List.mem_cons.mp h with rfl | h
    · exact List.sublist_append_left _ _
    · exact (entries_sublist_entriesList h).trans (List.sublist_append_right _ _)

theorem entries_sublist_of_descend : ∀ (path : List Nat) {node found : Node H N V},
    node.descend path = some found → found.entries.Sublist node.entries
  | [], node, found, h => by
    rw [descend, Option.some.injEq] at h
    rw [h]
  | i :: path, node, found, h => by
    obtain ⟨child, hchild, h⟩ := descend_cons_eq_some h
    refine (entries_sublist_of_descend path h).trans
      ((entries_sublist_entriesList (List.mem_of_getElem? hchild)).trans ?_)
    rw [entries_eq]
    exact List.sublist_cons_self _ _

theorem entries_sublist_of_nodeAt (h : nodeAt nodes path = some found) :
    found.entries.Sublist (entriesList nodes) := by
  obtain ⟨i, path, root, rfl, hroot, h⟩ := nodeAt_eq_some h
  exact (entries_sublist_of_descend path h).trans
    (entries_sublist_entriesList (List.mem_of_getElem? hroot))

theorem entries_subset_of_descend (path : List Nat)
    (h : node.descend path = some found) : found.entries ⊆ node.entries :=
  (entries_sublist_of_descend path h).subset

/-- A property every child of a node that has it has, the node at any path below has. -/
theorem of_descend {P : Node H N V → Prop} (hP : ∀ node, P node → ∀ child ∈ node.children, P child) :
    ∀ (path : List Nat) {node found : Node H N V}, P node → node.descend path = some found →
      P found
  | [], node, found, hnode, h => by
    rw [descend, Option.some.injEq] at h
    rwa [← h]
  | i :: path, node, found, hnode, h => by
    obtain ⟨child, hchild, h⟩ := descend_cons_eq_some h
    exact of_descend hP path (hP node hnode child (List.mem_of_getElem? hchild)) h

theorem of_nodeAt {P : Node H N V → Prop} (hP : ∀ node, P node → ∀ child ∈ node.children, P child)
    {nodes : List (Node H N V)} (hnodes : ∀ node ∈ nodes, P node) {path : List Nat}
    (h : nodeAt nodes path = some found) : P found := by
  obtain ⟨i, path, root, rfl, hroot, h⟩ := nodeAt_eq_some h
  exact of_descend hP path (hnodes root (List.mem_of_getElem? hroot)) h

theorem entries_subset_of_nodeAt
    (h : nodeAt nodes path = some found) : found.entries ⊆ entriesList nodes :=
  (entries_sublist_of_nodeAt h).subset

variable [LinearOrder N] {B : BlockTree H N}

theorem edges_children
    (h : node.Edges fun parent child => B.isDescendentOf parent.1 child.1 = true) :
    ∀ child ∈ node.children, child.Edges fun parent child => B.isDescendentOf parent.1 child.1 = true :=
  edgesList_iff.mp (edges_iff.mp h).2

theorem SeparatedList.separated_of_mem (h : SeparatedList B l)
    (hnode : node ∈ l) : node.Separated B := by
  induction l with
  | nil => cases hnode
  | cons head rest ih =>
    rw [SeparatedList] at h
    rcases List.mem_cons.mp hnode with rfl | hnode
    · exact h.1
    · exact ih h.2.2 hnode

/-- An entry of a separated forest is one of a given tree of it, or lies apart from all of that
tree's entries. -/
theorem SeparatedList.mem_or_apart (h : SeparatedList B l) :
    ∀ {i : Nat} {node : Node H N V}, l[i]? = some node → ∀ {e : H × N × V}, e ∈ entriesList l →
      e ∈ node.entries ∨ ∀ e' ∈ node.entries, B.Apart e'.1 e.1 := by
  induction l with
  | nil =>
    intro i node hnode
    cases hnode
  | cons head rest ih =>
    intro i node hnode e he
    rw [SeparatedList] at h
    rw [entriesList, List.mem_append] at he
    cases i with
    | zero =>
      rw [List.getElem?_cons_zero, Option.some.injEq] at hnode
      subst hnode
      rcases he with he | he
      · exact .inl he
      · obtain ⟨other, hother, he⟩ := mem_entriesList.mp he
        exact .inr fun e' he' => h.2.1 other hother e' he' e he
    | succ i =>
      rw [List.getElem?_cons_succ] at hnode
      rcases he with he | he
      · exact .inr fun e' he' => (h.2.1 node (List.mem_of_getElem? hnode) e he e' he').symm
      · exact ih h.2.2 hnode he

/-- In a separated subtree whose children descend from their parents, every descendant of the node
at a path is an entry below that node. -/
theorem mem_entries_of_isDescendentOf : ∀ (path : List Nat) {node found : Node H N V},
    node.Edges (fun parent child => B.isDescendentOf parent.1 child.1 = true) →
    node.Separated B → node.descend path = some found →
    ∀ e ∈ node.entries, B.isDescendentOf found.hash e.1 = true → e ∈ found.entries
  | [], node, found, _, _, h, e, he, _ => by
    rw [descend, Option.some.injEq] at h
    rwa [← h]
  | i :: path, node, found, hedges, hsep, h, e, he, hdesc => by
    obtain ⟨child, hchild, h⟩ := descend_cons_eq_some h
    have hmem := List.mem_of_getElem? hchild
    have hchildEdges := edges_children hedges child hmem
    have hfound := descend_header_mem path h
    rw [entries_eq] at he
    rcases List.mem_cons.mp he with rfl | he
    · -- the node is an ancestor of the node found, so not one of its descendants
      have hbelow : B.isDescendentOf node.hash found.hash = true :=
        BlockTree.isDescendentOf_of_ancestorOrSelf ((edges_iff.mp hedges).1 child hmem)
          (entries_descend child hchildEdges _ hfound)
      exact absurd (B.height_lt hdesc) (not_lt.mpr (B.height_lt hbelow).le)
    · rcases (separated_iff.mp hsep).mem_or_apart hchild he with he | hapart
      · exact mem_entries_of_isDescendentOf path hchildEdges
          ((separated_iff.mp hsep).separated_of_mem hmem) h e he hdesc
      · have hnot : B.isDescendentOf found.hash e.1 = false :=
          (hapart found.header (entries_subset_of_descend path h (header_mem_entries found))).2.1
        rw [hnot] at hdesc
        cases hdesc

/-- The same for the node at a path of a forest. -/
theorem mem_entries_of_isDescendentOf_nodeAt
    (hedges : EdgesList (fun parent child => B.isDescendentOf parent.1 child.1 = true) nodes)
    (hsep : SeparatedList B nodes)
    (h : nodeAt nodes path = some found) :
    ∀ e ∈ entriesList nodes, B.isDescendentOf found.hash e.1 = true → e ∈ found.entries := by
  intro e he hdesc
  obtain ⟨i, path, root, rfl, hroot, h⟩ := nodeAt_eq_some h
  have hmem := List.mem_of_getElem? hroot
  rcases hsep.mem_or_apart hroot he with he | hapart
  · exact mem_entries_of_isDescendentOf path (edgesList_iff.mp hedges root hmem)
      (hsep.separated_of_mem hmem) h e he hdesc
  · have hnot : B.isDescendentOf found.hash e.1 = false :=
      (hapart found.header (entries_subset_of_descend path h (header_mem_entries found))).2.1
    rw [hnot] at hdesc
    cases hdesc

/-! ## The loop of `prune` below the new root -/

section Below

variable [DecidableEq H] (B) (hash : H)

/-- What the loop of `prune` over children returns: none when no child is an ancestor of the block;
else the child on its branch, pruned, and the subtrees cut. -/
def PrunesChildren (l : List (Node H N V)) : Option (Node H N V × List (Node H N V)) → Prop
  | none => ∀ child ∈ l, B.isDescendentOf child.hash hash = false
  | some (next, cut) => (∃ child ∈ l, B.isDescendentOf child.hash hash = true) ∧
      next.entries = (entriesList l).filter (fun e => B.onBranch e.1 hash) ∧
      (entriesList cut).Perm ((entriesList l).filter fun e => !B.onBranch e.1 hash)

variable {B hash}

omit [DecidableEq H] in
/-- With true numbers, the loop goes down exactly to the ancestors of the block. -/
theorem goesDown_eq (hheight : child.number = B.height child.hash) :
    goesDown hash (B.height hash) B.isDescendentOf child = B.isDescendentOf child.hash hash := by
  rw [goesDown, hheight]
  cases hdesc : B.isDescendentOf child.hash hash
  · exact Bool.and_false _
  · rw [Bool.and_true, decide_eq_true_iff]
    exact B.height_lt hdesc

/-- With true numbers, the last loop keeps exactly the block and its descendants. -/
theorem keepsChild_eq_true_iff (hheight : child.number = B.height child.hash) :
    keepsChild hash (B.height hash) B.isDescendentOf child = true ↔
      B.AncestorOrSelf hash child.hash := by
  rw [keepsChild, hheight, Bool.or_eq_true, Bool.and_eq_true, Bool.and_eq_true, decide_eq_true_iff,
    decide_eq_true_iff, decide_eq_true_iff]
  constructor
  · rintro (⟨-, rfl⟩ | ⟨-, hdesc⟩)
    · exact .refl _
    · exact .inr hdesc
  · rintro (rfl | hdesc)
    · exact .inl ⟨rfl, rfl⟩
    · exact .inr ⟨B.height_lt hdesc, hdesc⟩

/-- Below a child that is no ancestor of the block, an entry is on the block's branch exactly when
the loop keeps the child. -/
theorem onBranch_eq_keepsChild (hheight : child.number = B.height child.hash)
    (hedges : child.Edges fun parent child => B.isDescendentOf parent.1 child.1 = true)
    (hnot : B.isDescendentOf child.hash hash = false) :
    ∀ e ∈ child.entries, B.onBranch e.1 hash = keepsChild hash (B.height hash) B.isDescendentOf child :=
  fun e he => Bool.eq_iff_iff.mpr ((BlockTree.onBranch_iff_of_ancestorOrSelf hnot
    (entries_descend child hedges e he)).trans (keepsChild_eq_true_iff hheight).symm)

/-- Once one tree of a separated list holds an ancestor of a block, no entry of another is on the
block's branch. -/
theorem SeparatedList.onBranch_eq_false {rest : List (Node H N V)}
    (h : SeparatedList B (node :: rest)) (he : e ∈ node.entries)
    (hanc : B.isDescendentOf e.1 hash = true) :
    ∀ e' ∈ entriesList rest, B.onBranch e'.1 hash = false := by
  intro e' he'
  rw [SeparatedList] at h
  obtain ⟨other, hother, he'⟩ := mem_entriesList.mp he'
  exact (h.2.1 other hother e he e' he').symm.onBranch_eq_false hanc

/-- Entries none of which is on the block's branch are all cut. -/
theorem filter_onBranch_of_forall {l : List (H × N × V)} (h : ∀ e ∈ l, B.onBranch e.1 hash = false) :
    l.filter (fun e => B.onBranch e.1 hash) = [] ∧ l.filter (fun e => !B.onBranch e.1 hash) = l := by
  refine ⟨List.filter_eq_nil_iff.mpr fun e he hon => ?_, List.filter_eq_self.mpr fun e he => ?_⟩
  · rw [h e he] at hon
    cases hon
  · rw [h e he]
    rfl

theorem pruneBelow_header (node : Node H N V) :
    (pruneBelow hash (B.height hash) B.isDescendentOf node).1.header = node.header := by
  obtain ⟨blockHash, blockNumber, data, children⟩ := node
  rw [pruneBelow]
  split <;> rfl

mutual
/-- Below an ancestor of the block, the loop of `prune` keeps the entries of the subtree on the
block's branch and cuts the others. -/
theorem pruneBelow_entries : ∀ node : Node H N V, (∀ e ∈ node.entries, e.2.1 = B.height e.1) →
    node.Edges (fun parent child => B.isDescendentOf parent.1 child.1 = true) →
    node.Separated B → B.isDescendentOf node.hash hash = true →
    (pruneBelow hash (B.height hash) B.isDescendentOf node).1.entries =
        node.entries.filter (fun e => B.onBranch e.1 hash) ∧
      (entriesList (pruneBelow hash (B.height hash) B.isDescendentOf node).2).Perm
        (node.entries.filter fun e => !B.onBranch e.1 hash)
  | ⟨blockHash, blockNumber, data, children⟩, hheights, hedges, hsep, hanc => by
    have hroot : B.onBranch blockHash hash = true :=
      BlockTree.onBranch_eq_true_iff.mpr (.inl hanc)
    rw [entries_mk] at hheights
    rw [edges_iff] at hedges
    have hchildren := pruneChildren_prunes children
      (fun e he => hheights e (List.mem_cons_of_mem _ he)) hedges.2 (separated_iff.mp hsep)
    rw [pruneBelow, entries_mk, List.filter_cons_of_pos (p := fun e => B.onBranch e.1 hash)
      (a := (blockHash, blockNumber, data)) hroot, List.filter_cons_of_neg
      (p := fun e => !B.onBranch e.1 hash) (a := (blockHash, blockNumber, data))
      (by rw [hroot]; decide)]
    cases hresult : pruneChildren hash (B.height hash) B.isDescendentOf children with
    | none =>
      -- no child goes down: the node is the last ancestor, and its children are kept whole
      rw [hresult] at hchildren
      have hkeeps : ∀ child ∈ children, ∀ e ∈ child.entries,
          B.onBranch e.1 hash = keepsChild hash (B.height hash) B.isDescendentOf child :=
        fun child hchild => onBranch_eq_keepsChild
          (hheights _ (List.mem_cons_of_mem _ (entries_subset_entriesList hchild
            (header_mem_entries child))))
          (edgesList_iff.mp hedges.2 child hchild) (hchildren child hchild)
      refine ⟨?_, ?_⟩
      · rw [entries_mk, entriesList_filter _ _ children hkeeps]
      · rw [entriesList_filter _ (fun child => !keepsChild hash (B.height hash) B.isDescendentOf
          child) children fun child hchild e he => by rw [hkeeps child hchild e he]]
    | some result =>
      obtain ⟨next, cut⟩ := result
      rw [hresult] at hchildren
      obtain ⟨-, hnext, hcut⟩ := hchildren
      refine ⟨?_, hcut⟩
      rw [entries_mk, entriesList, entriesList, List.append_nil, hnext]

/-- The loop of `prune` over a list of separated children finds the one ancestor of the block among
them, if any. -/
theorem pruneChildren_prunes : ∀ l : List (Node H N V), (∀ e ∈ entriesList l, e.2.1 = B.height e.1) →
    EdgesList (fun parent child => B.isDescendentOf parent.1 child.1 = true) l →
    SeparatedList B l →
    PrunesChildren B hash l (pruneChildren hash (B.height hash) B.isDescendentOf l)
  | [], _, _, _ => by
    rw [pruneChildren, PrunesChildren]
    intro child hchild
    cases hchild
  | child :: rest, hheights, hedges, hsep => by
    rw [entriesList] at hheights
    rw [EdgesList] at hedges
    have hsep' := hsep
    rw [SeparatedList] at hsep'
    have hheightsChild : ∀ e ∈ child.entries, e.2.1 = B.height e.1 :=
      fun e he => hheights e (List.mem_append_left _ he)
    have hheightsRest : ∀ e ∈ entriesList rest, e.2.1 = B.height e.1 :=
      fun e he => hheights e (List.mem_append_right _ he)
    rw [pruneChildren, goesDown_eq (hheightsChild _ (header_mem_entries child))]
    by_cases hanc : B.isDescendentOf child.hash hash = true
    · -- the child is the ancestor: the loop goes down it, and its siblings are cut whole
      rw [if_pos hanc]
      have hrestOff := hsep.onBranch_eq_false (header_mem_entries child) hanc
      obtain ⟨hnext, hcut⟩ := pruneBelow_entries child hheightsChild hedges.1 hsep'.1 hanc
      rcases hpruned : pruneBelow hash (B.height hash) B.isDescendentOf child with ⟨next, cut⟩
      rw [hpruned] at hnext hcut
      obtain ⟨hrestKept, hrestCut⟩ := filter_onBranch_of_forall hrestOff
      refine ⟨⟨child, List.mem_cons_self, hanc⟩, ?_, ?_⟩
      · rw [hnext, entriesList, List.filter_append, hrestKept, List.append_nil]
      · rw [entriesList_append, entriesList, List.filter_append, hrestCut]
        exact (hcut.append_left _).trans List.perm_append_comm
    · rw [if_neg hanc]
      have hrest := pruneChildren_prunes rest hheightsRest hedges.2 hsep'.2.2
      cases hresult : pruneChildren hash (B.height hash) B.isDescendentOf rest with
      | none =>
        rw [hresult] at hrest
        intro child' hchild'
        rcases List.mem_cons.mp hchild' with rfl | hchild'
        · exact Bool.eq_false_iff.mpr hanc
        · exact hrest child' hchild'
      | some result =>
        -- a later child is the ancestor: this one is cut whole
        obtain ⟨next, cut⟩ := result
        rw [hresult] at hrest
        obtain ⟨⟨other, hother, hotherAnc⟩, hnext, hcut⟩ := hrest
        have hchildOff : ∀ e ∈ child.entries, B.onBranch e.1 hash = false := fun e he =>
          (hsep'.2.1 other hother e he other.header (header_mem_entries other)).onBranch_eq_false
            hotherAnc
        obtain ⟨hchildKept, hchildCut⟩ := filter_onBranch_of_forall hchildOff
        refine ⟨⟨other, List.mem_cons_of_mem _ hother, hotherAnc⟩, ?_, ?_⟩
        · rw [hnext, entriesList, List.filter_append, hchildKept, List.nil_append]
        · rw [entriesList, entriesList, List.filter_append, hchildCut]
          exact hcut.append_left _
end

end Below

/-! ## `prune` -/

section Prune

variable [DecidableEq H]

variable (B) in
/-- The entries `prune` should keep once it re-roots the forest at `root`: the root, the ancestors
of the block below it, the block itself and its descendants. -/
def keptByPrune (hash root : H) (e : H × N × V) : Bool :=
  decide (e.1 = root) || (B.isDescendentOf root e.1 && B.isDescendentOf e.1 hash) ||
    decide (e.1 = hash) || B.isDescendentOf hash e.1

/-- In an exact forest whose node `root` at a path is an ancestor of the block, an entry is one
`prune` should keep exactly when it lies below the root on the block's branch. -/
theorem keptByPrune_iff (hexact : Exact B nodes)
    {root : Node H N V} (hroot : nodeAt nodes path = some root) {hash : H}
    (hanc : B.isDescendentOf root.hash hash = true) (he : e ∈ entriesList nodes) :
    keptByPrune B hash root.hash e = true ↔ e ∈ root.entries ∧ B.onBranch e.1 hash = true := by
  have hedges := Exact.edgesList nodes hexact
  -- the descendants of the root are its entries
  have hbelow := mem_entries_of_isDescendentOf_nodeAt hedges (Exact.separatedList nodes hexact) hroot
  have hrootEdges : root.Edges fun parent child => B.isDescendentOf parent.1 child.1 = true :=
    of_nodeAt (fun _ h => edges_children h) (edgesList_iff.mp hedges) hroot
  rw [keptByPrune, Bool.or_eq_true, Bool.or_eq_true, Bool.or_eq_true, Bool.and_eq_true,
    decide_eq_true_iff, decide_eq_true_iff, BlockTree.onBranch_eq_true_iff]
  constructor
  · rintro (((heq | ⟨hre, heh⟩) | heq) | hhe)
    · have hself : e = root.header :=
        List.inj_on_of_nodup_map hexact.nodup he (header_mem_of_nodeAt hroot) heq
      rw [hself]
      exact ⟨header_mem_entries root, .inl hanc⟩
    · exact ⟨hbelow e he hre, .inl heh⟩
    · exact ⟨hbelow e he (heq ▸ hanc), .inr (.inl heq)⟩
    · exact ⟨hbelow e he (B.trans hanc hhe), .inr (.inr hhe)⟩
  · rintro ⟨hmem, hon⟩
    rcases entries_descend root hrootEdges e hmem with heq | hre
    · exact .inl (.inl (.inl heq.symm))
    · rcases hon with heh | heq | hhe
      · exact .inl (.inl (.inr ⟨hre, heh⟩))
      · exact .inl (.inr heq)
      · exact .inr hhe

omit [LinearOrder N] in
/-- `prune` once the search found the new root's path: the root detached and pruned below, the rest
of the forest and what is cut below the root on the stack. -/
theorem prune_eq_of_found [LinearOrder N] {t : ForkTree H N V} {hash : H} {number : N}
    {isDescendentOf : H → H → Bool} {predicate : V → Bool} {last : Nat}
    {siblings : List (Node H N V)} {root next : Node H N V} {cut : List (Node H N V)}
    (hfind : t.findNodeIndexWhere hash number isDescendentOf predicate = some path)
    (hlast : path.getLast? = some last) (hsiblings : childrenAt t.roots path.dropLast = some siblings)
    (hroot : siblings[last]? = some root)
    (hpruned : pruneBelow hash number isDescendentOf root = (next, cut)) :
    t.prune hash number isDescendentOf predicate =
      some (rebalance { t with roots := [next] },
        removedEntries (sizeList (updateAt (fun siblings => siblings.eraseIdx last) t.roots
          path.dropLast ++ cut))
          (updateAt (fun siblings => siblings.eraseIdx last) t.roots path.dropLast ++ cut)) := by
  rw [prune, hfind]
  simp only [hlast, hsiblings, hroot, hpruned, Option.bind_eq_bind, Option.bind_some,
    Option.pure_def]

/-- In an exact fork tree `prune` changes nothing unless an ancestor of the block passes the
predicate; then it re-roots at the deepest one, keeping the block's branch and descendants, and
yields every other node once. -/
theorem prune_keeps_the_branch_of_the_block (B : BlockTree H N) (t : ForkTree H N V)
    (hexact : Exact B t.roots) (hash : H) (predicate : V → Bool) :
    ∃ t' removed, t.prune hash (B.height hash) B.isDescendentOf predicate = some (t', removed) ∧
      ((∀ e ∈ entriesList t.roots, B.isDescendentOf e.1 hash = true → predicate e.2.2 = false) ∧
          t' = t ∧ removed = [] ∨
        ∃ root, root.header ∈ entriesList t.roots ∧
          Deepest B hash predicate (entriesList t.roots) root ∧
          t'.roots.map Node.header = [root.header] ∧
          (entriesList t'.roots).Perm ((entriesList t.roots).filter (keptByPrune B hash root.hash)) ∧
          removed.Perm ((entriesList t.roots).filter fun e => !keptByPrune B hash root.hash e)) := by
  have hedges := Exact.edgesList t.roots hexact
  have hsep := Exact.separatedList t.roots hexact
  have hfinds : FindsIn B hash predicate t.roots (entriesList t.roots)
      (t.findNodeIndexWhere hash (B.height hash) B.isDescendentOf predicate) :=
    findFromRoot_finds t.roots [] hexact.heights hedges hsep
  cases hfind : t.findNodeIndexWhere hash (B.height hash) B.isDescendentOf predicate with
  | none =>
    rw [hfind] at hfinds
    refine ⟨t, [], by rw [prune, hfind], .inl ⟨hfinds, rfl, rfl⟩⟩
  | some path =>
    rw [hfind] at hfinds
    obtain ⟨root, hroot, hdeep⟩ := hfinds
    -- the path leads to the root through its siblings, as the source indexes them
    have hroot' := hroot
    rw [nodeAt_eq_childrenAt, Option.bind_eq_some_iff] at hroot'
    obtain ⟨last, hlast, hroot'⟩ := hroot'
    rw [Option.bind_eq_some_iff] at hroot'
    obtain ⟨siblings, hsiblings, hindex⟩ := hroot'
    have hrootEdges : root.Edges fun parent child => B.isDescendentOf parent.1 child.1 = true :=
      of_nodeAt (fun _ h => edges_children h) (edgesList_iff.mp hedges) hroot
    have hrootSep : root.Separated B :=
      of_nodeAt (fun _ h child hchild => (separated_iff.mp h).separated_of_mem hchild)
        (fun node hnode => hsep.separated_of_mem hnode) hroot
    have hsub := entries_subset_of_nodeAt hroot
    obtain ⟨hkept, hcut⟩ := pruneBelow_entries root (fun e he => hexact.heights e (hsub he))
      hrootEdges hrootSep hdeep.ancestor
    rcases hpruned : pruneBelow hash (B.height hash) B.isDescendentOf root with ⟨next, cut⟩
    rw [hpruned] at hkept hcut
    have hheader : next.header = root.header := by
      rw [← pruneBelow_header (B := B) root, hpruned]
    -- the forest is the rest of it and the root's subtree, with distinct entries
    have hsplit := entriesList_updateAt_eraseIdx path.dropLast hsiblings hindex
    have hnodup : (entriesList (updateAt (fun siblings => siblings.eraseIdx last) t.roots
        path.dropLast) ++ root.entries).Nodup :=
      hsplit.nodup_iff.mpr (hexact.nodup.of_map _)
    have hkeptIff : ∀ e ∈ root.entries,
        keptByPrune B hash root.hash e = B.onBranch e.1 hash := fun e he =>
      Bool.eq_iff_iff.mpr ((keptByPrune_iff hexact hroot hdeep.ancestor (hsub he)).trans
        (and_iff_right he))
    refine ⟨_, _, prune_eq_of_found hfind hlast hsiblings hindex hpruned,
      .inr ⟨root, header_mem_of_nodeAt hroot, hdeep, ?_, ?_, ?_⟩⟩
    · rw [rebalance, List.map_eq_singleton_iff]
      exact ⟨_, rfl, (header_rebalance next).trans hheader⟩
    · refine (entriesList_rebalance _).trans ?_
      rw [entriesList, entriesList, List.append_nil, hkept]
      refine (List.perm_ext_iff_of_nodup ((List.nodup_append.mp hnodup).2.1.filter _)
        ((hexact.nodup.of_map _).filter _)).mpr fun e => ?_
      rw [List.mem_filter, List.mem_filter]
      constructor
      · rintro ⟨he, hon⟩
        exact ⟨hsub he, (hkeptIff e he).trans hon⟩
      · rintro ⟨he, hkeep⟩
        exact (keptByPrune_iff hexact hroot hdeep.ancestor he).mp hkeep
    · refine (removedEntries_perm _ _ le_rfl).trans ?_
      rw [entriesList_append]
      refine (hcut.append_left _).trans ?_
      refine List.Perm.trans ?_ (hsplit.filter _)
      rw [List.filter_append, List.filter_congr fun e he => congrArg (!·) (hkeptIff e he)]
      refine List.Perm.append_right _ (List.Perm.of_eq (List.filter_eq_self.mpr fun e he => ?_).symm)
      -- an entry of the rest of the forest is no entry of the root's subtree
      rw [Bool.not_eq_true', ← Bool.not_eq_true]
      intro hkeep
      have hmem := ((keptByPrune_iff hexact hroot hdeep.ancestor
        (hsplit.subset (List.mem_append_left _ he))).mp hkeep).1
      exact (List.nodup_append.mp hnodup).2.2 e he e hmem rfl

theorem prune_one_branch_at_five :
    Exact BlockTree.chain oneBranch.roots ∧
    ∃ t' removed, oneBranch.prune 5 (BlockTree.chain.height 5) BlockTree.chain.isDescendentOf
        (fun _ => true) = some (t', removed) ∧
      ((∀ e ∈ entriesList oneBranch.roots, BlockTree.chain.isDescendentOf e.1 5 = true →
          (fun _ => true) e.2.2 = false) ∧ t' = oneBranch ∧ removed = [] ∨
        ∃ root, root.header ∈ entriesList oneBranch.roots ∧
          Deepest BlockTree.chain 5 (fun _ => true) (entriesList oneBranch.roots) root ∧
          t'.roots.map Node.header = [root.header] ∧
          (entriesList t'.roots).Perm
            ((entriesList oneBranch.roots).filter (keptByPrune BlockTree.chain 5 root.hash)) ∧
          removed.Perm ((entriesList oneBranch.roots).filter
            fun e => !keptByPrune BlockTree.chain 5 root.hash e)) := by
  have hexact : Exact BlockTree.chain oneBranch.roots := ⟨by decide, by decide, by decide⟩
  exact ⟨hexact, prune_keeps_the_branch_of_the_block BlockTree.chain oneBranch hexact 5
    fun _ => true⟩

/-- Pruning at block `5` re-roots the branch at block `4` and removes blocks `1` and `2`. -/
example : (oneBranch.prune 5 5 BlockTree.chain.isDescendentOf fun _ => true).map
      (fun result => (entriesList result.1.roots, result.2)) =
    some ([(4, 4, 40)], [(1, 1, 10), (2, 2, 20)]) := by
  decide

end Prune

end Substrate.ForkTree
