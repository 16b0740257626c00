import Substrate.Utils.ForkTreeDrain

/-! # The path of a search, and what an import adds

The stack of `find_node_index_where` is a chain of children from a root (`StackFrom`), so the path
it returns leads to the node found. `import` adds its node there or as the last root, and the
entries grow by exactly that one.
-/

namespace Substrate.ForkTree

variable {H N V : Type}
  {node : Node H N V} {i : Nat} {path : List Nat} {nodes : List (Node H N V)}

namespace Node

def descend (node : Node H N V) : List Nat → Option (Node H N V)
  | [] => some node
  | i :: path => node.children[i]?.bind fun child => child.descend path

theorem descend_cons_eq_some {node found : Node H N V}
    (h : node.descend (i :: path) = some found) :
    ∃ child, node.children[i]? = some child ∧ child.descend path = some found :=
  Option.bind_eq_some_iff.mp h

theorem descend_append (path : List Nat) (i : Nat) :
    ∀ node : Node H N V,
      node.descend (path ++ [i]) = (node.descend path).bind fun last => last.children[i]? := by
  induction path with
  | nil =>
    intro node
    simp [descend]
  | cons j path ih =>
    intro node
    rw [List.cons_append, descend, descend]
    cases node.children[j]? with
    | none => rfl
    | some child => exact ih child

/-- The children of the node a path leads to are what `childrenAt` finds below it. -/
theorem childrenAt_of_descend (path : List Nat) :
    ∀ {node last : Node H N V}, node.descend path = some last →
      childrenAt node.children path = some last.children := by
  induction path with
  | nil =>
    intro node last h
    rw [descend, Option.some.injEq] at h
    rw [childrenAt, h]
  | cons i path ih =>
    intro node last h
    obtain ⟨child, hchild, h⟩ := descend_cons_eq_some h
    rw [childrenAt, hchild, Option.bind_some]
    exact ih h

theorem header_mem_entries (node : Node H N V) : node.header ∈ node.entries := by
  obtain ⟨hash, number, data, children⟩ := node
  rw [entries_mk]
  exact List.mem_cons_self

theorem entries_subset_entriesList (h : node ∈ nodes) : node.entries ⊆ entriesList nodes := by
  rw [entriesList_eq_flatMap]
  exact fun e he => List.mem_flatMap.mpr ⟨node, h, he⟩

theorem entriesList_children_subset (node : Node H N V) :
    entriesList node.children ⊆ node.entries := by
  obtain ⟨hash, number, data, children⟩ := node
  rw [entries_mk]
  exact List.subset_cons_self _ _

/-- The children found below a path are nodes of the forest. -/
theorem header_mem_of_childrenAt (path : List Nat) :
    ∀ {nodes children : List (Node H N V)} {child : Node H N V},
      childrenAt nodes path = some children → child ∈ children → child.header ∈ entriesList nodes := by
  induction path with
  | nil =>
    intro nodes children child h hchild
    rw [childrenAt, Option.some.injEq] at h
    subst h
    exact entries_subset_entriesList hchild (header_mem_entries child)
  | cons i path ih =>
    intro nodes children child h hchild
    rw [childrenAt] at h
    cases hnode : nodes[i]? with
    | none =>
      rw [hnode] at h
      cases h
    | some node =>
      rw [hnode] at h
      have hmem : node ∈ nodes := List.mem_of_getElem? hnode
      exact entries_subset_entriesList hmem (entriesList_children_subset node (ih h hchild))

theorem entriesList_modify (g : Node H N V → Node H N V) (extra : List (H × N × V)) :
    ∀ (nodes : List (Node H N V)) (i : Nat) {node : Node H N V}, nodes[i]? = some node →
      (g node).entries.Perm (node.entries ++ extra) →
      (entriesList (nodes.modify i g)).Perm (entriesList nodes ++ extra) := by
  intro nodes
  induction nodes with
  | nil =>
    intro i node h
    cases h
  | cons head rest ih =>
    intro i node h hg
    cases i with
    | zero =>
      rw [List.getElem?_cons_zero, Option.some.injEq] at h
      subst h
      rw [List.modify_zero_cons, entriesList, entriesList, List.append_assoc]
      refine (hg.append_right _).trans ?_
      rw [List.append_assoc]
      exact List.perm_append_comm.append_left _
    | succ i =>
      rw [List.getElem?_cons_succ] at h
      rw [List.modify_succ_cons, entriesList, entriesList, List.append_assoc]
      exact (ih i h hg).append_left _

end Node

open Node

/-! ## The search stack -/

/-- A search stack, top first, read from the bottom as a chain of children from `root`: the next
child of each entry, less one, is the index of the entry above. -/
def StackFrom (root : Node H N V) : List (Node H N V × Nat) → Prop
  | [] => True
  | [(node, _)] => node = root
  | (node, _) :: (parent, i) :: rest =>
      0 < i ∧ parent.children[i - 1]? = some node ∧ StackFrom root ((parent, i) :: rest)

section StackFrom

variable {root : Node H N V}

theorem StackFrom.tail {entry : Node H N V × Nat} {stack : List (Node H N V × Nat)}
    (h : StackFrom root (entry :: stack)) : StackFrom root stack := by
  cases stack with
  | nil => trivial
  | cons parentEntry rest =>
    rw [StackFrom] at h
    exact h.2.2

/-- The next child of the top entry is free. -/
theorem StackFrom.advance {stack : List (Node H N V × Nat)}
    (h : StackFrom root ((node, i) :: stack)) (j : Nat) : StackFrom root ((node, j) :: stack) := by
  cases stack with
  | nil =>
    rw [StackFrom] at h ⊢
    exact h
  | cons parentEntry rest =>
    rw [StackFrom] at h ⊢
    exact h

/-- Going down to the child of the top entry that is next to search. -/
theorem StackFrom.push {node child : Node H N V} {stack : List (Node H N V × Nat)}
    (h : StackFrom root ((node, i) :: stack)) (hchild : node.children[i]? = some child) :
    StackFrom root ((child, 0) :: (node, i + 1) :: stack) := by
  rw [StackFrom]
  exact ⟨Nat.succ_pos i, hchild, h.advance (i + 1)⟩

/-- The path of the entries below the top, from the bottom, leads from the root to the top. -/
theorem StackFrom.descend_eq (stack : List (Node H N V × Nat)) :
    ∀ {node : Node H N V} {i : Nat}, StackFrom root ((node, i) :: stack) →
      root.descend (stack.reverse.map fun entry => entry.2 - 1) = some node := by
  induction stack with
  | nil =>
    intro node i h
    rw [StackFrom] at h
    rw [h]
    rfl
  | cons parentEntry rest ih =>
    intro node i h
    obtain ⟨parent, j⟩ := parentEntry
    rw [StackFrom] at h
    obtain ⟨-, hchild, hrest⟩ := h
    rw [List.reverse_cons, List.map_append, List.map_singleton, descend_append, ih hrest]
    exact hchild

end StackFrom

/-! ## Paths into the forest -/

/-- The node a path of root and child indices leads to in a forest. -/
def nodeAt (nodes : List (Node H N V)) : List Nat → Option (Node H N V)
  | [] => none
  | i :: path => nodes[i]?.bind fun node => node.descend path

theorem nodeAt_eq_some {found : Node H N V}
    (h : nodeAt nodes path = some found) :
    ∃ i rest root, path = i :: rest ∧ nodes[i]? = some root ∧ root.descend rest = some found := by
  cases path with
  | nil => cases h
  | cons i rest =>
    obtain ⟨root, hroot, h⟩ := Option.bind_eq_some_iff.mp h
    exact ⟨i, rest, root, rfl, hroot, h⟩

theorem childrenAt_of_nodeAt
    (h : nodeAt nodes path = some node) : childrenAt nodes path = some node.children := by
  obtain ⟨i, path, parent, rfl, hnode, h⟩ := nodeAt_eq_some h
  rw [childrenAt, hnode, Option.bind_some]
  exact childrenAt_of_descend path h

/-- Adding a node as the last child at a path that leads to a node adds its entries. -/
theorem entriesList_updateAt_append (new : Node H N V) (path : List Nat) :
    ∀ {nodes children : List (Node H N V)}, childrenAt nodes path = some children →
      (entriesList (updateAt (· ++ [new]) nodes path)).Perm (entriesList nodes ++ new.entries) := by
  induction path with
  | nil =>
    intro nodes children _
    rw [updateAt, entriesList_append, entriesList, entriesList, List.append_nil]
  | cons i path ih =>
    intro nodes children h
    rw [childrenAt] at h
    cases hnode : nodes[i]? with
    | none =>
      rw [hnode] at h
      cases h
    | some node =>
      rw [hnode] at h
      rw [updateAt]
      refine entriesList_modify _ _ nodes i hnode ?_
      obtain ⟨hash, number, data, children⟩ := node
      simp only [entries_mk, List.cons_append]
      exact (ih h).cons _

/-! ## The search -/

variable [LinearOrder N]

section Search

variable (hash : H) (number : N) (isDescendentOf : H → H → Bool) (predicate : V → Bool)

/-- A node the search of one root returns passes the predicate, and the stack left leads to it. -/
theorem searchStack_found (root : Node H N V) (fuel : Nat) :
    ∀ (stack : List (Node H N V × Nat)) (isDescendent : Bool), StackFrom root stack →
      (searchStack hash number isDescendentOf predicate fuel stack isDescendent).2.2 = true →
      ∃ node, root.descend ((searchStack hash number isDescendentOf predicate fuel stack
        isDescendent).1.reverse.map fun entry => entry.2 - 1) = some node ∧
        predicate node.data = true := by
  induction fuel with
  | zero =>
    intro stack isDescendent _ hfound
    rw [searchStack] at hfound
    cases hfound
  | succ fuel ih =>
    intro stack isDescendent hstack hfound
    cases stack with
    | nil =>
      rw [searchStack] at hfound
      cases hfound
    | cons entry stack =>
      obtain ⟨node, i⟩ := entry
      rw [searchStack] at hfound ⊢
      split
      · -- the search goes down to the next child, or past it
        rw [if_pos ‹_›] at hfound
        dsimp only at hfound ⊢
        cases hchild : node.children[i]? with
        | none =>
          rw [hchild] at hfound
          exact ih _ _ (hstack.advance (i + 1)) hfound
        | some child =>
          rw [hchild] at hfound
          dsimp only at hfound ⊢
          split
          · rw [if_pos ‹_›] at hfound
            exact ih _ _ (hstack.push hchild) hfound
          · rw [if_neg ‹_›] at hfound
            exact ih _ _ (hstack.advance (i + 1)) hfound
      · rw [if_neg ‹_›] at hfound
        split
        · rw [if_pos ‹_›] at hfound
          split
          · -- the top is the node found, popped off the stack that leads to it
            exact ⟨node, hstack.descend_eq stack, ‹_›⟩
          · rw [if_neg ‹_›] at hfound
            exact ih _ _ hstack.tail hfound
        · rw [if_neg ‹_›] at hfound
          exact ih _ _ hstack.tail hfound

/-- A path the outer loop returns leads to a node of the forest that passes the predicate; the
roots before `rootIdx` are those already searched. -/
theorem findFromRoot_found (roots : List (Node H N V)) :
    ∀ (searched : List (Node H N V)) (path : List Nat),
      findFromRoot hash number isDescendentOf predicate searched.length roots = some path →
      ∃ node, nodeAt (searched ++ roots) path = some node ∧ predicate node.data = true := by
  induction roots with
  | nil =>
    intro searched path h
    rw [findFromRoot] at h
    cases h
  | cons root rest ih =>
    intro searched path h
    have hnext : ∀ path, findFromRoot hash number isDescendentOf predicate (searched.length + 1)
        rest = some path →
        ∃ node, nodeAt (searched ++ root :: rest) path = some node ∧ predicate node.data = true :=
      fun path h => by
        have hlen : (searched ++ [root]).length = searched.length + 1 := by simp
        rw [← hlen] at h
        simpa only [List.append_assoc, List.singleton_append] using ih (searched ++ [root]) path h
    rw [findFromRoot] at h
    split at h
    · exact hnext path h
    · split at h
      · next stack isDescendent hsearch =>
        rw [Option.some.injEq] at h
        subst h
        have hfound := searchStack_found hash number isDescendentOf predicate root (2 * root.size)
          [(root, 0)] false (by rw [StackFrom]) (by rw [hsearch])
        rw [hsearch] at hfound
        obtain ⟨node, hdescend, hpred⟩ := hfound
        refine ⟨node, ?_, hpred⟩
        rw [nodeAt, List.getElem?_append_right le_rfl, Nat.sub_self, List.getElem?_cons_zero,
          Option.bind_some]
        exact hdescend
      · cases h
      · exact hnext path h

/-- The path `find_node_index_where` returns leads to a node of the forest that passes the
predicate. -/
theorem findNodeIndexWhere_found (t : ForkTree H N V)
    (h : t.findNodeIndexWhere hash number isDescendentOf predicate = some path) :
    ∃ node, nodeAt t.roots path = some node ∧ predicate node.data = true :=
  findFromRoot_found hash number isDescendentOf predicate t.roots [] path h

end Search

/-! ## Import -/

variable [DecidableEq H]

/-- A successful import adds exactly the imported entry to the forest, up to order. -/
theorem import_entries {t t' : ForkTree H N V} {hash : H} {number : N} {data : V}
    {isDescendentOf : H → H → Bool} {isRoot : Bool}
    (himport : t.import hash number data isDescendentOf = .ok (t', isRoot)) :
    (entriesList t'.roots).Perm (entriesList t.roots ++ [(hash, number, data)]) := by
  have hnew : (⟨hash, number, data, []⟩ : Node H N V).entries = [(hash, number, data)] := by
    rw [entries_mk, entriesList]
  rw [ForkTree.import] at himport
  split at himport
  · cases himport
  · dsimp only at himport
    split at himport
    · next path hpath =>
      split at himport
      · cases himport
      · simp only [Except.ok.injEq, Prod.mk.injEq] at himport
        obtain ⟨rfl, -⟩ := himport
        -- the path leads to the parent, whose children get the new node
        obtain ⟨parent, hparent, -⟩ := findNodeIndexWhere_found hash number isDescendentOf _ t hpath
        have hroots := entriesList_updateAt_append ⟨hash, number, data, []⟩ path
          (childrenAt_of_nodeAt hparent)
        rw [hnew] at hroots
        split
        · exact (entriesList_rebalance _).trans hroots
        · exact hroots
    · split at himport
      · cases himport
      · simp only [Except.ok.injEq, Prod.mk.injEq] at himport
        obtain ⟨rfl, -⟩ := himport
        have hroots : entriesList (t.roots ++ [⟨hash, number, data, []⟩]) =
            entriesList t.roots ++ [(hash, number, data)] := by
          rw [entriesList_append, entriesList, entriesList, hnew, List.append_nil]
        split
        · exact (entriesList_rebalance _).trans (hroots ▸ List.Perm.refl _)
        · exact hroots ▸ List.Perm.refl _

def oneRoot : ForkTree Nat Nat Nat := ⟨[⟨1, 1, 10, []⟩], none⟩

theorem import_below_one_root :
    ∃ t' isRoot, oneRoot.import 2 2 20 (fun a b => decide (a < b)) = .ok (t', isRoot) ∧
      (entriesList t'.roots).Perm [(1, 1, 10), (2, 2, 20)] := by
  obtain ⟨t', isRoot, himport⟩ :
      ∃ t' isRoot, oneRoot.import 2 2 20 (fun a b => decide (a < b)) = .ok (t', isRoot) :=
    ⟨_, _, rfl⟩
  exact ⟨t', isRoot, himport, import_entries himport⟩

/-- An import refused as a duplicate met a node of the forest with the hash imported. -/
theorem import_duplicate {t : ForkTree H N V} {hash : H} {number : N} {data : V}
    {isDescendentOf : H → H → Bool}
    (himport : t.import hash number data isDescendentOf = .error .duplicate) :
    ∃ e ∈ entriesList t.roots, e.1 = hash := by
  rw [ForkTree.import] at himport
  split at himport
  · cases himport
  · dsimp only at himport
    split at himport
    · next path hpath =>
      split at himport
      · next hany =>
        obtain ⟨child, hchild, hhash⟩ := List.any_eq_true.mp hany
        -- no node at the path would leave no children to meet
        cases hchildren : childrenAt t.roots path with
        | none =>
          rw [hchildren, Option.getD_none] at hchild
          cases hchild
        | some children =>
          rw [hchildren, Option.getD_some] at hchild
          exact ⟨child.header, header_mem_of_childrenAt path hchildren hchild,
            of_decide_eq_true hhash⟩
      · cases himport
    · split at himport
      · next hany =>
        obtain ⟨root, hroot, hhash⟩ := List.any_eq_true.mp hany
        exact ⟨root.header, entries_subset_entriesList hroot (header_mem_entries root),
          of_decide_eq_true hhash⟩
      · cases himport

end Substrate.ForkTree
