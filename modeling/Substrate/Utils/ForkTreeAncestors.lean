import Substrate.Utils.ForkTreePrune
import Substrate.Utils.ForkTreeFinalize

/-! # What `finalize_with_ancestors` leaves

Without a node of the block's hash, the roots are opened in place with `swap_remove`. Over an
exact fork tree the loop keeps `Opening`, so the call leaves exactly the old subtrees below the
block (`FinalizedWithAncestors`).
-/

namespace Substrate.ForkTree

open Ancestry Node Fallible

variable {H N V : Type} {roots l l' : List (Node H N V)} {node root : Node H N V} {changed : Bool}
  {idx : Nat} {path : List Nat}

/-! ## `swap_remove` -/

/-- `swap_remove` keeps the elements before the index, and the others but the one removed, in
another order. -/
theorem swapRemove_middle {α : Type} (pre post : List α) (a : α) :
    ∃ rest, swapRemove (pre ++ a :: post) pre.length = pre ++ rest ∧ rest.Perm post := by
  rcases List.eq_nil_or_concat' post with rfl | ⟨middle, last, rfl⟩
  · refine ⟨[], ?_, .nil⟩
    rw [swapRemove, List.getLast?_concat]
    dsimp only
    rw [List.set_append_right _ _ le_rfl, Nat.sub_self, List.set_cons_zero, List.dropLast_concat,
      List.append_nil]
  · -- the last element moves into the place of the one removed
    refine ⟨last :: middle, ?_, List.perm_append_singleton _ _ |>.symm⟩
    rw [swapRemove, ← List.cons_append, ← List.append_assoc, List.getLast?_concat]
    dsimp only
    rw [List.append_assoc, List.cons_append, List.set_append_right _ _ le_rfl, Nat.sub_self,
      List.set_cons_zero, ← List.cons_append, ← List.append_assoc, List.dropLast_concat]

theorem swapRemove_eq {α : Type} {l : List α} {i : Nat} {a : α} (h : l[i]? = some a) :
    ∃ pre post rest, l = pre ++ a :: post ∧ pre.length = i ∧ swapRemove l i = pre ++ rest ∧
      rest.Perm post := by
  obtain ⟨hi, ha⟩ := List.getElem?_eq_some_iff.mp h
  have hl : l = l.take i ++ a :: l.drop (i + 1) := by
    rw [← ha, ← List.drop_eq_getElem_cons hi, List.take_append_drop]
  have hlen : (l.take i).length = i := List.length_take_of_le hi.le
  obtain ⟨rest, hrest, hperm⟩ := swapRemove_middle (l.take i) (l.drop (i + 1)) a
  refine ⟨l.take i, l.drop (i + 1), rest, hl, hlen, ?_, hperm⟩
  rw [← hrest, hlen, ← hl]

/-! ## Subtrees of a forest -/

theorem nodeAt_singleton {nodes : List (Node H N V)} {i : Nat}
    (h : nodes[i]? = some node) : nodeAt nodes [i] = some node := by
  rw [nodeAt, h, Option.bind_some, descend]

/-- A child of the node at a path is the node at the path one index longer. -/
theorem nodeAt_child {nodes : List (Node H N V)} {node child : Node H N V}
    (h : nodeAt nodes path = some node) (hchild : child ∈ node.children) :
    ∃ path', nodeAt nodes path' = some child := by
  obtain ⟨i, hi, hget⟩ := List.getElem_of_mem hchild
  refine ⟨path ++ [i], ?_⟩
  rw [nodeAt_append, childrenAt_of_nodeAt h, Option.bind_some, List.getElem?_eq_some_iff]
  exact ⟨hi, hget⟩

theorem sizeList_perm (h : l.Perm l') : sizeList l = sizeList l' := by
  rw [sizeList_eq_sum, sizeList_eq_sum]
  exact (h.map size).sum_eq

/-- The roots from the index on lose the root removed and gain the ones appended. -/
theorem sizeList_drop_swapRemove (hroot : roots[idx]? = some root) (extra : List (Node H N V)) :
    sizeList ((swapRemove roots idx ++ extra).drop idx) + sizeList root.children + 1 =
      sizeList (roots.drop idx) + sizeList extra := by
  obtain ⟨pre, post, rest, rfl, rfl, hswap, hperm⟩ := swapRemove_eq hroot
  rw [hswap, List.append_assoc, List.drop_left, List.drop_left, sizeList_append, sizeList, size_eq,
    sizeList_perm hperm]
  omega

/-- The entries of the roots are those of the root removed and those of the roots left. -/
theorem entriesList_swapRemove (hroot : roots[idx]? = some root) :
    (entriesList roots).Perm (root.entries ++ entriesList (swapRemove roots idx)) := by
  obtain ⟨pre, post, rest, rfl, -, hswap, hperm⟩ := swapRemove_eq hroot
  rw [hswap, entriesList_append, entriesList_append, entriesList]
  -- the root's entries move to the front, and those after it are those of the roots moved
  exact (List.perm_append_comm_assoc _ _ _).trans
    (((entriesList_perm hperm.symm).append_left _).append_left _)

/-! ## Separated forests up to order -/

variable [LinearOrder N] {B : BlockTree H N}

theorem Apart.symm {node other : Node H N V} (h : Apart B node other) : Apart B other node :=
  fun e he e' he' => (h e' he' e he).symm

theorem Apart.child {node other child : Node H N V} (h : Apart B node other)
    (hchild : child ∈ other.children) : Apart B node child :=
  fun e he e' he' => h e he e' (entriesList_children_subset other
    (entries_subset_entriesList hchild he'))

/-- A separated list is one of separated trees pairwise apart, in whatever order. -/
theorem separatedList_iff {l : List (Node H N V)} :
    SeparatedList B l ↔ (∀ node ∈ l, node.Separated B) ∧ l.Pairwise (Apart B) := by
  induction l with
  | nil => simp [SeparatedList]
  | cons node rest ih =>
    rw [SeparatedList, ih, List.pairwise_cons, List.forall_mem_cons]
    constructor
    · rintro ⟨hnode, hapart, hrest, hpair⟩
      exact ⟨⟨hnode, hrest⟩, hapart, hpair⟩
    · rintro ⟨⟨hnode, hrest⟩, hapart, hpair⟩
      exact ⟨hnode, hapart, hrest, hpair⟩

theorem SeparatedList.perm (h : SeparatedList B l) (hperm : l.Perm l') :
    SeparatedList B l' := by
  rw [separatedList_iff] at h ⊢
  exact ⟨fun node hnode => h.1 node (hperm.mem_iff.mpr hnode),
    (hperm.pairwise_iff fun happart => happart.symm).mp h.2⟩

theorem SeparatedList.sublist (h : SeparatedList B l)
    (hsub : l'.Sublist l) : SeparatedList B l' := by
  rw [separatedList_iff] at h ⊢
  exact ⟨fun node hnode => h.1 node (hsub.subset hnode), h.2.sublist hsub⟩

/-- Replacing a tree of a separated list by its children keeps the list separated. -/
theorem SeparatedList.open {pre post : List (Node H N V)}
    (h : SeparatedList B (pre ++ node :: post)) : SeparatedList B (pre ++ post ++ node.children) := by
  rw [separatedList_iff] at h ⊢
  obtain ⟨hseparated, hpair⟩ := h
  have hnode := hseparated node (List.mem_append_right _ List.mem_cons_self)
  have hchildren := separatedList_iff.mp (separated_iff.mp hnode)
  rw [List.pairwise_append, List.pairwise_cons] at hpair
  refine ⟨fun other hother => ?_, List.pairwise_append.mpr ⟨?_, hchildren.2, ?_⟩⟩
  · rcases List.mem_append.mp hother with hother | hother
    · exact hseparated other (by
        rcases List.mem_append.mp hother with hother | hother
        · exact List.mem_append_left _ hother
        · exact List.mem_append_right _ (List.mem_cons_of_mem _ hother))
    · exact hchildren.1 other hother
  · exact List.pairwise_append.mpr ⟨hpair.1, hpair.2.1.2,
      fun a ha b hb => hpair.2.2 a ha b (List.mem_cons_of_mem _ hb)⟩
  · -- the trees before and after are apart from the node, so from each of its children
    intro other hother child hchild
    rcases List.mem_append.mp hother with hother | hother
    · exact (hpair.2.2 other hother node List.mem_cons_self).child hchild
    · exact (hpair.2.1.1 other hother).symm.child hchild

/-! ## The loop of `finalize_with_ancestors` -/

section Opening

variable [DecidableEq H] {E : Type}

/-- One round with a total oracle over a root numbered by its height: the number tests hold of the
block's descendants and ancestors, so only the oracle decides. -/
theorem openAncestors_step {hash : H} {fuel idx : Nat}
    (hroot : roots[idx]? = some root)
    (hheight : root.number = B.height root.hash) :
    openAncestors hash (B.height hash) (okOracle B.isDescendentOf : H → H → Except E Bool)
        (fuel + 1) idx roots changed =
      if root.hash = hash then (roots, .ok (some root, changed))
      else if B.isDescendentOf hash root.hash then
        openAncestors hash (B.height hash) (okOracle B.isDescendentOf) fuel (idx + 1) roots changed
      else if B.isDescendentOf root.hash hash then
        openAncestors hash (B.height hash) (okOracle B.isDescendentOf) fuel idx
          (swapRemove roots idx ++ root.children) true
      else
        openAncestors hash (B.height hash) (okOracle B.isDescendentOf) fuel idx
          (swapRemove roots idx) true := by
  rw [openAncestors, hroot]
  dsimp only
  by_cases heq : root.hash = hash
  · rw [if_pos heq, if_pos heq]
  rw [if_neg heq, if_neg heq]
  cases hdesc : B.isDescendentOf hash root.hash with
  | true =>
    have hlt : B.height hash < root.number := hheight ▸ B.height_lt hdesc
    simp only [okOracle, if_pos hlt, hdesc, if_true]
  | false =>
    cases hanc : B.isDescendentOf root.hash hash with
    | true =>
      have hlt : root.number < B.height hash := hheight ▸ B.height_lt hanc
      simp [okOracle, hdesc, hanc, hlt]
    | false => simp [okOracle, hdesc, hanc]

variable (B) in
/-- The loop over the roots `old` of an exact fork tree: subtrees of `old` on forks apart, those
before `idx` descending from the block, no descendant of the block lost. -/
structure Opening (old : List (Node H N V)) (hash : H) (idx : Nat) (roots : List (Node H N V))
    (changed : Bool) : Prop where
  subtrees : ∀ root ∈ roots, ∃ path, nodeAt old path = some root
  separated : SeparatedList B roots
  kept : ∀ root ∈ roots.take idx, B.isDescendentOf hash root.hash = true
  branch : ((entriesList roots).filter fun e => decide (B.AncestorOrSelf hash e.1)).Perm
    ((entriesList old).filter fun e => decide (B.AncestorOrSelf hash e.1))
  unchanged : changed = false → roots = old
  changed : changed = true → ∃ e ∈ entriesList old, B.isDescendentOf hash e.1 = false

variable {old : List (Node H N V)} {hash : H}

omit [DecidableEq H] in
/-- The edges of an exact forest hold below each of its subtrees. -/
theorem edges_of_nodeAt (hexact : Exact B old)
    (h : nodeAt old path = some node) :
    node.Edges fun parent child => B.isDescendentOf parent.1 child.1 = true :=
  of_nodeAt (fun _ hnode => edges_children hnode) (edgesList_iff.mp (Exact.edgesList old hexact)) h

theorem Opening.start (hexact : Exact B old) : Opening B old hash 0 old false where
  subtrees root hroot := by
    obtain ⟨i, hi, hget⟩ := List.getElem_of_mem hroot
    exact ⟨[i], nodeAt_singleton (List.getElem?_eq_some_iff.mpr ⟨hi, hget⟩)⟩
  separated := Exact.separatedList old hexact
  kept root hroot := by
    rw [List.take_zero] at hroot
    cases hroot
  branch := .refl _
  unchanged _ := rfl
  changed h := absurd h Bool.false_ne_true

/-- A root that descends from the block is kept, and the loop moves past it. -/
theorem Opening.keep (h : Opening B old hash idx roots changed) (hroot : roots[idx]? = some root)
    (hdesc : B.isDescendentOf hash root.hash = true) : Opening B old hash (idx + 1) roots changed :=
  { h with
    kept := by
      intro other hother
      rw [List.take_add_one, hroot, Option.toList_some, List.mem_append] at hother
      rcases hother with hother | hother
      · exact h.kept other hother
      · rw [List.mem_singleton.mp hother]
        exact hdesc }

/-- An ancestor of the block is replaced by its children. -/
theorem Opening.openRoot (h : Opening B old hash idx roots changed)
    (hroot : roots[idx]? = some root) (hanc : B.isDescendentOf root.hash hash = true) :
    Opening B old hash idx (swapRemove roots idx ++ root.children) true := by
  have hentries := entriesList_swapRemove hroot
  obtain ⟨pre, post, rest, rfl, rfl, hswap, hperm⟩ := swapRemove_eq hroot
  obtain ⟨path, hpath⟩ := h.subtrees root (List.mem_append_right _ List.mem_cons_self)
  rw [hswap] at hentries ⊢
  have hmem : ∀ other ∈ pre ++ rest, other ∈ pre ++ root :: post := by
    intro other hother
    rcases List.mem_append.mp hother with hother | hother
    · exact List.mem_append_left _ hother
    · exact List.mem_append_right _ (List.mem_cons_of_mem _ (hperm.mem_iff.mp hother))
  have hnot : ¬B.AncestorOrSelf hash root.hash := BlockTree.not_ancestorOrSelf_of_isDescendentOf hanc
  refine ⟨?_, ?_, ?_, ?_, ?_, ?_⟩
  · intro other hother
    rcases List.mem_append.mp hother with hother | hother
    · exact h.subtrees other (hmem other hother)
    · exact nodeAt_child hpath hother
  · exact h.separated.open.perm ((hperm.symm.append_left pre).append_right _)
  · rw [List.append_assoc, List.take_left]
    intro other hother
    exact h.kept other (by rw [List.take_left]; exact hother)
  · -- the root itself is the only entry given up, and it is not on the block's branch
    have hopen : (entriesList (pre ++ root :: post)).Perm
        (root.header :: entriesList (pre ++ rest ++ root.children)) := by
      rw [entriesList_append _ root.children, entries_eq] at *
      exact hentries.trans ((List.perm_append_comm).cons _)
    have hfilter := hopen.filter fun e => decide (B.AncestorOrSelf hash e.1)
    rw [List.filter_cons_of_neg (by rw [decide_eq_true_iff]; exact hnot)] at hfilter
    exact hfilter.symm.trans h.branch
  · intro hfalse
    cases hfalse
  · intro _
    refine ⟨root.header, header_mem_of_nodeAt hpath, ?_⟩
    rw [Bool.eq_false_iff]
    intro hdesc
    exact hnot (.inr hdesc)

/-- A root on another fork than the block is removed. -/
theorem Opening.removeRoot (hexact : Exact B old)
    (h : Opening B old hash idx roots changed)
    (hroot : roots[idx]? = some root) (hne : root.hash ≠ hash)
    (hdesc : B.isDescendentOf hash root.hash = false)
    (hanc : B.isDescendentOf root.hash hash = false) :
    Opening B old hash idx (swapRemove roots idx) true := by
  have hentries := entriesList_swapRemove hroot
  obtain ⟨pre, post, rest, rfl, rfl, hswap, hperm⟩ := swapRemove_eq hroot
  obtain ⟨path, hpath⟩ := h.subtrees root (List.mem_append_right _ List.mem_cons_self)
  rw [hswap] at hentries ⊢
  have hsub : (pre ++ post).Sublist (pre ++ root :: post) :=
    (List.sublist_cons_self root post).append_left pre
  have hnotAnc : ¬B.AncestorOrSelf root.hash hash := by
    rintro (heq | hanc')
    · exact hne heq
    · rw [hanc'] at hanc
      cases hanc
  refine ⟨?_, ?_, ?_, ?_, ?_, ?_⟩
  · intro other hother
    exact h.subtrees other (hsub.subset ((hperm.symm.append_left pre).mem_iff.mpr hother))
  · exact (h.separated.sublist hsub).perm (hperm.symm.append_left pre)
  · rw [List.take_left]
    intro other hother
    exact h.kept other (by rw [List.take_left]; exact hother)
  · -- no entry below the root is on the block's branch
    have hnone : root.entries.filter (fun e => decide (B.AncestorOrSelf hash e.1)) = [] := by
      rw [List.filter_eq_nil_iff]
      intro e he
      have hbelow := entries_descend root (edges_of_nodeAt hexact hpath) e he
      rw [decide_eq_true_iff]
      rintro (heq | hdesc')
      · exact hnotAnc (heq ▸ hbelow)
      · rw [BlockTree.not_isDescendentOf_of_unrelated hnotAnc hdesc hbelow] at hdesc'
        cases hdesc'
    have hfilter := hentries.filter fun e => decide (B.AncestorOrSelf hash e.1)
    rw [List.filter_append, hnone, List.nil_append] at hfilter
    exact hfilter.symm.trans h.branch
  · intro hfalse
    cases hfalse
  · intro _
    exact ⟨root.header, header_mem_of_nodeAt hpath, hdesc⟩

/-- With a round for each node from the index on and one more, the loop ends as its invariant says:
at the block's root, a subtree of the old roots, or past the last root. -/
theorem openAncestors_opens (hexact : Exact B old) :
    ∀ (fuel idx : Nat) (roots : List (Node H N V)) (changed : Bool),
      Opening B old hash idx roots changed → sizeList (roots.drop idx) < fuel →
      ∃ roots' found changed',
        openAncestors hash (B.height hash) (okOracle B.isDescendentOf : H → H → Except E Bool)
            fuel idx roots changed = (roots', .ok (found, changed')) ∧
        (∀ node, found = some node → node.hash = hash ∧ ∃ path, nodeAt old path = some node) ∧
        (found = none → Opening B old hash roots'.length roots' changed') := by
  intro fuel
  induction fuel with
  | zero =>
    intro idx roots changed _ hfuel
    exact absurd hfuel (Nat.not_lt_zero _)
  | succ fuel ih =>
    intro idx roots changed h hfuel
    cases hroot : roots[idx]? with
    | none =>
      -- past the last root, every root is one the loop kept
      have hlen : roots.length ≤ idx := List.getElem?_eq_none_iff.mp hroot
      refine ⟨roots, none, changed, by rw [openAncestors, hroot], (fun _ hnone => by cases hnone),
        fun _ => { h with kept := ?_ }⟩
      rw [List.take_length]
      intro root hmem
      exact h.kept root (by rw [List.take_of_length_le hlen]; exact hmem)
    | some root =>
      obtain ⟨path, hpath⟩ := h.subtrees root (List.mem_of_getElem? hroot)
      have hheight : root.number = B.height root.hash :=
        hexact.heights _ (header_mem_of_nodeAt hpath)
      have hsize := sizeList_drop_swapRemove hroot
      rw [openAncestors_step hroot hheight]
      by_cases heq : root.hash = hash
      · rw [if_pos heq]
        refine ⟨roots, some root, changed, rfl, fun node hnode => ?_, (fun hnone => by cases hnone)⟩
        rw [Option.some.injEq] at hnode
        exact hnode ▸ ⟨heq, path, hpath⟩
      rw [if_neg heq]
      cases hdesc : B.isDescendentOf hash root.hash with
      | true =>
        rw [if_pos rfl]
        apply ih (idx + 1) roots changed (h.keep hroot hdesc)
        obtain ⟨hi, hget⟩ := List.getElem?_eq_some_iff.mp hroot
        rw [List.drop_eq_getElem_cons hi, hget, sizeList, size_eq] at hfuel
        omega
      | false =>
        rw [if_neg Bool.false_ne_true]
        cases hanc : B.isDescendentOf root.hash hash with
        | true =>
          rw [if_pos rfl]
          apply ih idx _ true (h.openRoot hroot hanc)
          have := hsize root.children
          omega
        | false =>
          rw [if_neg Bool.false_ne_true]
          apply ih idx _ true (h.removeRoot hexact hroot heq hdesc hanc)
          have := hsize []
          rw [List.append_nil, sizeList] at this
          omega

/-- Past the last root, every entry left descends from the block. -/
theorem Opening.descendants (hexact : Exact B old)
    (h : Opening B old hash roots.length roots changed) :
    ∀ e ∈ entriesList roots, B.isDescendentOf hash e.1 = true := by
  intro e he
  obtain ⟨root, hroot, he⟩ := mem_entriesList.mp he
  obtain ⟨path, hpath⟩ := h.subtrees root hroot
  have hkept := h.kept root (by rw [List.take_length]; exact hroot)
  exact BlockTree.isDescendentOf_of_ancestorOrSelf hkept
    (entries_descend root (edges_of_nodeAt hexact hpath) e he)

/-- Past the last root the block was not a node: it would have been kept, and it does not descend
from itself. -/
theorem Opening.block_not_mem (hexact : Exact B old)
    (h : Opening B old hash roots.length roots changed) : ∀ e ∈ entriesList old, e.1 ≠ hash := by
  intro e he heq
  have hbranch : e ∈ (entriesList old).filter fun e => decide (B.AncestorOrSelf hash e.1) :=
    List.mem_filter.mpr ⟨he, decide_eq_true (.inl heq.symm)⟩
  have hdesc := h.descendants hexact e (List.mem_filter.mp (h.branch.mem_iff.mpr hbranch)).1
  rw [heq, B.irrefl] at hdesc
  cases hdesc

end Opening

/-! ## What the call leaves -/

section Finalized

variable [DecidableEq H] {E : Type}

variable (B) in
/-- What `finalize_with_ancestors` leaves of an exact fork tree: its subtrees below the block, the
block's height as best finalized number, and whether anything was pruned. -/
structure FinalizedWithAncestors (t t' : ForkTree H N V) (hash : H) (r : FinalizationResult V) :
    Prop where
  subtrees : ∀ root ∈ t'.roots, ∃ path, nodeAt t.roots path = some root
  descendants : (entriesList t'.roots).Perm
    ((entriesList t.roots).filter fun e => B.isDescendentOf hash e.1)
  bestFinalized : t'.bestFinalizedNumber = some (B.height hash)
  finalized : ∀ data, r = .changed (some data) ↔ (hash, B.height hash, data) ∈ entriesList t.roots
  unchanged : r = .unchanged ↔ ∀ e ∈ entriesList t.roots, B.isDescendentOf hash e.1 = true
  pruned : r = .changed none ↔ (∀ data, (hash, B.height hash, data) ∉ entriesList t.roots) ∧
    ∃ e ∈ entriesList t.roots, B.isDescendentOf hash e.1 = false

omit [DecidableEq H] in
/-- Below a node whose children descend from their parents, every entry descends from it. -/
theorem isDescendentOf_of_mem_entriesList_children
    (hedges : node.Edges fun parent child => B.isDescendentOf parent.1 child.1 = true)
    {e : H × N × V} (he : e ∈ entriesList node.children) : B.isDescendentOf node.hash e.1 = true := by
  obtain ⟨child, hchild, he⟩ := mem_entriesList.mp he
  exact BlockTree.isDescendentOf_of_ancestorOrSelf ((edges_iff.mp hedges).1 child hchild)
    (entries_descend child (edges_children hedges child hchild) e he)

omit [DecidableEq H] in
/-- Below a subtree of an exact forest are exactly the forest's descendants of its root. -/
theorem entriesList_children_of_nodeAt {old : List (Node H N V)} (hexact : Exact B old)
    (hnode : nodeAt old path = some node) :
    (entriesList node.children).Perm
      ((entriesList old).filter fun e => B.isDescendentOf node.hash e.1) := by
  have hchildren : (entriesList node.children).Sublist node.entries := by
    rw [entries_eq]
    exact List.sublist_cons_self _ _
  have hsub := hchildren.trans (entries_sublist_of_nodeAt hnode)
  have hnodup : (entriesList old).Nodup := hexact.nodup.of_map _
  have hedges := edges_of_nodeAt hexact hnode
  apply (List.perm_ext_iff_of_nodup (hnodup.sublist hsub) (hnodup.filter _)).mpr
  intro e
  rw [List.mem_filter]
  constructor
  · intro he
    exact ⟨hsub.subset he, isDescendentOf_of_mem_entriesList_children hedges he⟩
  · rintro ⟨he, hdesc⟩
    have hbelow := mem_entries_of_isDescendentOf_nodeAt (Exact.edgesList old hexact)
      (Exact.separatedList old hexact) hnode e he hdesc
    rw [entries_eq] at hbelow
    rcases List.mem_cons.mp hbelow with rfl | hbelow
    · rw [header, B.irrefl] at hdesc
      cases hdesc
    · exact hbelow

variable {t : ForkTree H N V} {hash : H}

omit [DecidableEq H] in
/-- Finalizing a node with the block's hash, a root or one the loop reaches, leaves its subtrees. -/
theorem finalizedWithAncestors_of_nodeAt (hexact : Exact B t.roots)
    (hnode : nodeAt t.roots path = some node) (hhash : node.hash = hash) :
    FinalizedWithAncestors B t ⟨node.children, some node.number⟩ hash (.changed (some node.data)) := by
  have hheader : node.header ∈ entriesList t.roots := header_mem_of_nodeAt hnode
  have hheight : node.number = B.height hash := hhash ▸ hexact.heights _ hheader
  have hblock : (hash, B.height hash, node.data) ∈ entriesList t.roots := by
    rw [← hheight, ← hhash]
    exact hheader
  refine ⟨fun child hchild => nodeAt_child hnode hchild,
    hhash ▸ entriesList_children_of_nodeAt hexact hnode, by rw [hheight], fun data => ?_, ?_, ?_⟩
  · constructor
    · intro hdata
      rw [FinalizationResult.changed.injEq, Option.some.injEq] at hdata
      exact hdata ▸ hblock
    · -- the block has one entry, since the hashes of an exact forest are distinct
      intro hmem
      have heq := List.inj_on_of_nodup_map hexact.nodup hmem hblock rfl
      rw [Prod.mk.injEq, Prod.mk.injEq] at heq
      rw [heq.2.2]
  · refine ⟨(fun hr => by cases hr), fun hall => ?_⟩
    have hself := hall _ hblock
    rw [B.irrefl] at hself
    cases hself
  · exact ⟨(fun hr => by cases hr), fun hpruned => absurd hblock (hpruned.1 node.data)⟩

/-- Past the last root, what the loop kept is what the call leaves. -/
theorem finalizedWithAncestors_of_opening (hexact : Exact B t.roots)
    (h : Opening B t.roots hash roots.length roots changed) :
    FinalizedWithAncestors B t ⟨roots, some (B.height hash)⟩ hash
      (if changed then .changed none else .unchanged) := by
  have hall := h.descendants hexact
  have hnot := h.block_not_mem hexact
  have hnone : ∀ data, (hash, B.height hash, data) ∉ entriesList t.roots :=
    fun data hmem => hnot _ hmem rfl
  refine ⟨h.subtrees, ?_, rfl, fun data => ?_, ?_, ?_⟩
  · -- no entry is the block, so its branch is its descendants
    have hbranch : ((entriesList t.roots).filter fun e => decide (B.AncestorOrSelf hash e.1)) =
        (entriesList t.roots).filter fun e => B.isDescendentOf hash e.1 := by
      apply List.filter_congr
      intro e he
      rw [Bool.eq_iff_iff, decide_eq_true_iff]
      exact ⟨fun hanc => Or.resolve_left hanc (Ne.symm (hnot e he)), .inr⟩
    have hkept : ((entriesList roots).filter fun e => decide (B.AncestorOrSelf hash e.1)) =
        entriesList roots :=
      List.filter_eq_self.mpr fun e he => decide_eq_true (Or.inr (hall e he))
    have hperm := h.branch
    rw [hkept, hbranch] at hperm
    exact hperm
  · refine ⟨fun hr => ?_, fun hmem => absurd hmem (hnone data)⟩
    cases changed <;> simp at hr
  · cases changed with
    | false =>
      simp only [Bool.false_eq_true, if_false, true_iff]
      rw [← h.unchanged rfl]
      exact hall
    | true =>
      simp only [if_true, reduceCtorEq, false_iff]
      obtain ⟨e, he, hdesc⟩ := h.changed rfl
      intro hdescendants
      rw [hdescendants e he] at hdesc
      cases hdesc
  · cases changed with
    | false =>
      simp only [Bool.false_eq_true, if_false, reduceCtorEq, false_iff]
      rintro ⟨-, e, he, hdesc⟩
      rw [← h.unchanged rfl] at he
      rw [hall e he] at hdesc
      cases hdesc
    | true =>
      simp only [if_true, true_iff]
      exact ⟨hnone, h.changed rfl⟩

omit [LinearOrder N] in
theorem finalizeRoot_eq_some {t' : ForkTree H N V} {data : V}
    (h : finalizeRoot t hash = some (t', data)) :
    ∃ (i : Nat) (node : Node H N V), t.roots[i]? = some node ∧ node.hash = hash ∧
      t' = ⟨node.children, some node.number⟩ ∧ data = node.data := by
  rw [finalizeRoot, Option.bind_eq_some_iff] at h
  obtain ⟨i, hi, h⟩ := h
  rw [finalizeRootAt, Option.map_eq_some_iff] at h
  obtain ⟨node, hnode, heq⟩ := h
  obtain ⟨_, hfound, -⟩ := List.findIdx?_eq_some_iff_getElem.mp hi
  obtain ⟨_, hget⟩ := List.getElem?_eq_some_iff.mp hnode
  rw [hget, decide_eq_true_iff] at hfound
  rw [Prod.mk.injEq] at heq
  exact ⟨i, node, hnode, hfound, heq.1.symm, heq.2.symm⟩

/-- Over an exact fork tree, with an oracle that never fails, `finalize_with_ancestors` at a block
after the best finalized one succeeds and leaves the subtrees below the block. -/
theorem finalizeWithAncestors_keeps_the_descendants (B : BlockTree H N) (t : ForkTree H N V)
    (hexact : Exact B t.roots) (hash : H)
    (hbest : ∀ best, t.bestFinalizedNumber = some best → best < B.height hash) :
    ∃ t' r, finalizeWithAncestors t hash (B.height hash)
        (okOracle B.isDescendentOf : H → H → Except E Bool) = (t', .ok r) ∧
      FinalizedWithAncestors B t t' hash r := by
  have hrevert : reverts t (B.height hash) = false := by
    rw [reverts]
    cases hb : t.bestFinalizedNumber with
    | none => rfl
    | some best =>
      rw [Option.map_some, Option.getD_some, decide_eq_false_iff_not, not_le]
      exact hbest best hb
  rw [finalizeWithAncestors, hrevert, if_neg Bool.false_ne_true]
  cases hroot : finalizeRoot t hash with
  | some found =>
    obtain ⟨t', data⟩ := found
    obtain ⟨i, node, hnode, hhash, rfl, rfl⟩ := finalizeRoot_eq_some hroot
    exact ⟨_, _, rfl, finalizedWithAncestors_of_nodeAt hexact (nodeAt_singleton hnode) hhash⟩
  | none =>
    obtain ⟨roots, found, changed, hloop, hfound, hend⟩ :=
      openAncestors_opens hexact (sizeList t.roots + 1) 0 t.roots false (Opening.start hexact)
        (by rw [List.drop_zero]; omega)
    dsimp only
    rw [hloop]
    cases found with
    | some node =>
      obtain ⟨hhash, path, hpath⟩ := hfound node rfl
      exact ⟨_, _, rfl, finalizedWithAncestors_of_nodeAt hexact hpath hhash⟩
    | none => exact ⟨_, _, rfl, finalizedWithAncestors_of_opening hexact (hend rfl)⟩

theorem finalizeWithAncestors_one_branch_at_three :
    Exact BlockTree.chain oneBranch.roots ∧
    (∀ best, oneBranch.bestFinalizedNumber = some best → best < BlockTree.chain.height 3) ∧
    ∃ t' r, finalizeWithAncestors oneBranch 3 (BlockTree.chain.height 3)
        (okOracle BlockTree.chain.isDescendentOf : Nat → Nat → Except Unit Bool) = (t', .ok r) ∧
      FinalizedWithAncestors BlockTree.chain oneBranch t' 3 r := by
  have hexact : Exact BlockTree.chain oneBranch.roots := ⟨by decide, by decide, by decide⟩
  have hbest : ∀ best, oneBranch.bestFinalizedNumber = some best → best < BlockTree.chain.height 3 :=
    fun best hbest => by cases hbest
  exact ⟨hexact, hbest, finalizeWithAncestors_keeps_the_descendants BlockTree.chain oneBranch hexact 3
    hbest⟩

/-- Block `3` is not a node: the call opens blocks `1` and `2` and leaves block `4`. -/
example : finalizeWithAncestors oneBranch 3 3
      (okOracle BlockTree.chain.isDescendentOf : Nat → Nat → Except Unit Bool) =
    (⟨[⟨4, 4, 40, []⟩], some 3⟩, .ok (.changed none)) := by
  rfl

end Finalized

end Substrate.ForkTree
