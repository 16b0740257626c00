import Substrate.Utils.ForkTreeExact

/-! # The node `find_node_index_where` finds

`searchStack` computes the recursive `visit` within the fuel. In an exact fork tree it returns the
path to the deepest ancestor of the block that passes, or none.
-/

namespace Substrate.ForkTree

open Ancestry Node

variable {H N V : Type}

/-- What the search of a subtree returns: no ancestor of the block met; ancestors met, none passing
the predicate; or the path to the node that passes it. -/
inductive Visit where
  | missed
  | passed
  | found (path : List Nat)

/-- The entries a search leaves on the stack when it finds the node at `path` below `node`: each
node on the way, top first, with the next child to search. -/
def framesOf : Node H N V → List Nat → List (Node H N V × Nat)
  | _, [] => []
  | node, i :: path =>
    match node.children[i]? with
    | some child => framesOf child path ++ [(node, i + 1)]
    | none => []

/-- Read from the bottom, the frames left at a path give back the path. -/
theorem framesOf_path : ∀ (path : List Nat) {node found : Node H N V}, node.descend path = some found →
    (framesOf node path).reverse.map (fun entry => entry.2 - 1) = path
  | [], _, _, _ => by rw [framesOf]; rfl
  | i :: path, node, found, h => by
    obtain ⟨child, hchild, h⟩ := descend_cons_eq_some h
    rw [framesOf, hchild]
    simp only [List.reverse_append, List.reverse_singleton, List.singleton_append, List.map_cons,
      Nat.add_sub_cancel, framesOf_path path h]

theorem descend_header_mem : ∀ (path : List Nat) {node found : Node H N V},
    node.descend path = some found → found.header ∈ node.entries
  | [], node, found, h => by
    rw [descend, Option.some.injEq] at h
    subst h
    exact header_mem_entries node
  | i :: path, node, found, h => by
    obtain ⟨child, hchild, h⟩ := descend_cons_eq_some h
    have hmem : child ∈ node.children := List.mem_of_getElem? hchild
    exact entriesList_children_subset node
      (entries_subset_entriesList hmem (descend_header_mem path h))

theorem header_mem_of_nodeAt {nodes : List (Node H N V)} {path : List Nat} {node : Node H N V}
    (h : nodeAt nodes path = some node) : node.header ∈ entriesList nodes := by
  obtain ⟨i, path, root, rfl, hroot, h⟩ := nodeAt_eq_some h
  exact entries_subset_entriesList (List.mem_of_getElem? hroot) (descend_header_mem path h)

theorem childrenAt_eq_map_descend : ∀ (path : List Nat) (node : Node H N V),
    childrenAt node.children path = (node.descend path).map Node.children
  | [], node => rfl
  | i :: path, node => by
    rw [childrenAt, descend]
    cases node.children[i]? with
    | none => rfl
    | some child => exact childrenAt_eq_map_descend path child

theorem nodeAt_append (nodes : List (Node H N V)) (last : Nat) : ∀ path : List Nat,
    nodeAt nodes (path ++ [last]) = (childrenAt nodes path).bind fun children => children[last]?
  | [] => by
    rw [List.nil_append, nodeAt, childrenAt, Option.bind_some]
    cases nodes[last]? <;> rfl
  | i :: path => by
    rw [List.cons_append, nodeAt, childrenAt]
    cases nodes[i]? with
    | none => rfl
    | some node =>
      rw [Option.bind_some, Option.bind_some, descend_append, childrenAt_eq_map_descend,
        Option.bind_map]
      rfl

/-- The source's way to the node at a path: the children its other indices lead to, then the last
index among them. -/
theorem nodeAt_eq_childrenAt (nodes : List (Node H N V)) (path : List Nat) :
    nodeAt nodes path =
      path.getLast?.bind fun last => (childrenAt nodes path.dropLast).bind fun children =>
        children[last]? := by
  induction path using List.reverseRecOn with
  | nil => rfl
  | append_singleton path last _ =>
    rw [List.getLast?_concat, List.dropLast_concat, Option.bind_some, nodeAt_append]

/-! ## The search of one root by recursion -/

section Visit

variable [LinearOrder N] (hash : H) (number : N) (isDescendentOf : H → H → Bool)
  (predicate : V → Bool)

mutual
/-- The search of a subtree by recursion: the children earlier than `number` first, the node last,
or on the way back from a child below which an ancestor was met. -/
def visit : Node H N V → Visit
  | node@⟨_, _, _, children⟩ => visitFrom node 0 children

def visitFrom (node : Node H N V) (i : Nat) : List (Node H N V) → Visit
  | [] =>
    if isDescendentOf node.hash hash then (if predicate node.data then .found [] else .passed)
    else .missed
  | child :: children =>
    if child.number < number then
      match visit child with
      | .missed => visitFrom node (i + 1) children
      | .passed => if predicate node.data then .found [] else .passed
      | .found path => .found (i :: path)
    else visitFrom node (i + 1) children
end

/-- Where the stack search goes once the subtree of `node` is searched with `result`: on over the
stack below, with the ancestor flag, or out with the node's frames. -/
def resume (fuel : Nat) (rest : List (Node H N V × Nat)) (node : Node H N V) :
    Visit → List (Node H N V × Nat) × Bool × Bool
  | .missed => searchStack hash number isDescendentOf predicate fuel rest false
  | .passed => searchStack hash number isDescendentOf predicate fuel rest true
  | .found path => (framesOf node path ++ rest, true, true)

/-! ### One step of the stack search -/

section Steps

variable {node child : Node H N V} {i : Nat} {rest : List (Node H N V × Nat)} (fuel : Nat)

/-- Going down to the next child, when it is earlier than `number`. -/
theorem searchStack_down (hchild : node.children[i]? = some child) (hlt : child.number < number) :
    searchStack hash number isDescendentOf predicate (fuel + 1) ((node, i) :: rest) false =
      searchStack hash number isDescendentOf predicate fuel ((child, 0) :: (node, i + 1) :: rest)
        false := by
  have hi : i < node.children.length := (List.getElem?_eq_some_iff.mp hchild).1
  rw [searchStack, if_pos ⟨hi, rfl⟩]
  simp only [hchild, if_pos hlt]

/-- Going past the next child, when it is not earlier than `number`. -/
theorem searchStack_skip (hchild : node.children[i]? = some child) (hge : ¬child.number < number) :
    searchStack hash number isDescendentOf predicate (fuel + 1) ((node, i) :: rest) false =
      searchStack hash number isDescendentOf predicate fuel ((node, i + 1) :: rest) false := by
  have hi : i < node.children.length := (List.getElem?_eq_some_iff.mp hchild).1
  rw [searchStack, if_pos ⟨hi, rfl⟩]
  simp only [hchild, if_neg hge]

/-- Checking the top node, once its children are searched or an ancestor was met. -/
theorem searchStack_check {isDescendent : Bool}
    (hdone : node.children.length ≤ i ∨ isDescendent = true) :
    searchStack hash number isDescendentOf predicate (fuel + 1) ((node, i) :: rest) isDescendent =
      if isDescendent || isDescendentOf node.hash hash then
        (if predicate node.data then (rest, true, true)
        else searchStack hash number isDescendentOf predicate fuel rest true)
      else searchStack hash number isDescendentOf predicate fuel rest isDescendent := by
  have hnot : ¬(i < node.children.length ∧ isDescendent = false) := by
    rintro ⟨hi, hflag⟩
    rcases hdone with hlen | hflag'
    · omega
    · rw [hflag] at hflag'
      cases hflag'
  rw [searchStack, if_neg hnot]

theorem searchStack_nil (isDescendent : Bool) :
    searchStack hash number isDescendentOf predicate fuel [] isDescendent =
      ([], isDescendent, false) := by
  cases fuel <;> rfl

end Steps

/-! ### The stack search computes the recursive one -/

mutual
/-- Started with a node on top of any stack, the stack search searches its subtree as `visit` does,
in fewer than twice as many steps as the subtree has nodes, and resumes. -/
theorem searchStack_visit : ∀ node : Node H N V, ∃ k ≤ 2 * sizeList node.children + 1,
    ∀ fuel rest, searchStack hash number isDescendentOf predicate (k + fuel) ((node, 0) :: rest) false =
      resume hash number isDescendentOf predicate fuel rest node
        (visit hash number isDescendentOf predicate node)
  | ⟨blockHash, blockNumber, data, children⟩ => by
    rw [visit]
    exact searchStack_visitFrom ⟨blockHash, blockNumber, data, children⟩ 0 children rfl

theorem searchStack_visitFrom (node : Node H N V) : ∀ (i : Nat) (l : List (Node H N V)),
    node.children.drop i = l → ∃ k ≤ 2 * sizeList l + 1,
      ∀ fuel rest, searchStack hash number isDescendentOf predicate (k + fuel) ((node, i) :: rest) false =
        resume hash number isDescendentOf predicate fuel rest node
          (visitFrom hash number isDescendentOf predicate node i l)
  | i, [], hdrop => by
    have hlen : node.children.length ≤ i := List.drop_eq_nil_iff.mp hdrop
    refine ⟨1, by omega, fun fuel rest => ?_⟩
    rw [Nat.add_comm, searchStack_check hash number isDescendentOf predicate fuel (.inl hlen),
      Bool.false_or, visitFrom]
    -- the node is checked last: found, passed or missed as the oracle and the predicate say
    cases isDescendentOf node.hash hash <;> cases predicate node.data <;> rfl
  | i, child :: l, hdrop => by
    have hchild : node.children[i]? = some child := by
      have h0 : (node.children.drop i)[0]? = some child := by rw [hdrop]; rfl
      rwa [List.getElem?_drop, Nat.add_zero] at h0
    have hrest : node.children.drop (i + 1) = l := by
      rw [← List.drop_drop, hdrop]
      rfl
    obtain ⟨kc, hkc, hc⟩ := searchStack_visit child
    obtain ⟨kl, hkl, hl⟩ := searchStack_visitFrom node (i + 1) l hrest
    have hsize : sizeList (child :: l) = sizeList child.children + 1 + sizeList l := by
      rw [sizeList, size_eq]
    rw [visitFrom]
    by_cases hlt : child.number < number
    · rw [if_pos hlt]
      cases hresult : visit hash number isDescendentOf predicate child with
      | missed =>
        -- nothing met below the child: on to the next one
        refine ⟨kc + kl + 1, by omega, fun fuel rest => ?_⟩
        rw [show kc + kl + 1 + fuel = kc + (kl + fuel) + 1 by omega,
          searchStack_down hash number isDescendentOf predicate _ hchild hlt, hc, hresult]
        exact hl fuel rest
      | passed =>
        -- an ancestor met below the child: the node is checked on the way back
        refine ⟨kc + 2, by omega, fun fuel rest => ?_⟩
        rw [show kc + 2 + fuel = kc + (fuel + 1) + 1 by omega,
          searchStack_down hash number isDescendentOf predicate _ hchild hlt, hc, hresult, resume,
          searchStack_check hash number isDescendentOf predicate fuel (.inr rfl), Bool.true_or,
          if_pos rfl]
        cases predicate node.data <;> rfl
      | found path =>
        refine ⟨kc + 1, by omega, fun fuel rest => ?_⟩
        rw [show kc + 1 + fuel = kc + fuel + 1 by omega,
          searchStack_down hash number isDescendentOf predicate _ hchild hlt, hc, hresult, resume,
          resume, framesOf, hchild, List.append_assoc]
        rfl
    · rw [if_neg hlt]
      refine ⟨kl + 1, by omega, fun fuel rest => ?_⟩
      rw [show kl + 1 + fuel = kl + fuel + 1 by omega,
        searchStack_skip hash number isDescendentOf predicate _ hchild hlt]
      exact hl fuel rest
end

end Visit

/-! ## What the search finds in an exact fork tree -/

section Finds

variable [LinearOrder N] (B : BlockTree H N) (hash : H) (predicate : V → Bool)

/-- Among the entries `es`, `node` is the deepest ancestor of the block that passes the predicate:
every other one is its ancestor. -/
structure Deepest (es : List (H × N × V)) (node : Node H N V) : Prop where
  ancestor : B.isDescendentOf node.hash hash = true
  passes : predicate node.data = true
  deepest : ∀ e ∈ es, B.isDescendentOf e.1 hash = true → predicate e.2.2 = true →
    B.AncestorOrSelf e.1 node.hash

/-- What the search of the entries `es` below `root` should return: missed when none is an ancestor
of the block, passed when none of those passes, else the path to the deepest that does. -/
def Finds (root : Node H N V) (es : List (H × N × V)) : Visit → Prop
  | .missed => ∀ e ∈ es, B.isDescendentOf e.1 hash = false
  | .passed => (∃ e ∈ es, B.isDescendentOf e.1 hash = true) ∧
      ∀ e ∈ es, B.isDescendentOf e.1 hash = true → predicate e.2.2 = false
  | .found path => ∃ node, root.descend path = some node ∧ Deepest B hash predicate es node

/-- What the loop over the roots should return: none when no ancestor of the block passes the
predicate, else the path to the deepest that does. -/
def FindsIn (nodes : List (Node H N V)) (es : List (H × N × V)) : Option (List Nat) → Prop
  | none => ∀ e ∈ es, B.isDescendentOf e.1 hash = true → predicate e.2.2 = false
  | some path => ∃ node, nodeAt nodes path = some node ∧ Deepest B hash predicate es node

variable {B hash predicate}

/-- Entries that are no ancestors of the block leave the deepest one the deepest. -/
theorem Deepest.extend {es es' : List (H × N × V)} {node : Node H N V}
    (h : Deepest B hash predicate es node)
    (hnew : ∀ e ∈ es', e ∈ es ∨ B.isDescendentOf e.1 hash = false) :
    Deepest B hash predicate es' node := by
  refine ⟨h.ancestor, h.passes, fun e he hanc hpass => ?_⟩
  rcases hnew e he with he | hnot
  · exact h.deepest e he hanc hpass
  · rw [hnot] at hanc
    cases hanc

/-- Entries that are no ancestors of the block change nothing of what a search should find. -/
theorem Finds.extend {root : Node H N V} {es es' : List (H × N × V)} {result : Visit}
    (h : Finds B hash predicate root es result) (hsub : es ⊆ es')
    (hnew : ∀ e ∈ es', e ∈ es ∨ B.isDescendentOf e.1 hash = false) :
    Finds B hash predicate root es' result := by
  cases result with
  | missed =>
    intro e he
    rcases hnew e he with he | hnot
    · exact h e he
    · exact hnot
  | passed =>
    obtain ⟨⟨e, he, hanc⟩, hnone⟩ := h
    refine ⟨⟨e, hsub he, hanc⟩, fun e' he' hanc' => ?_⟩
    rcases hnew e' he' with he' | hnot
    · exact hnone e' he' hanc'
    · rw [hnot] at hanc'
      cases hanc'
  | found path =>
    obtain ⟨node, hnode, hdeep⟩ := h
    exact ⟨node, hnode, hdeep.extend hnew⟩

/-- A child below which no entry is an ancestor changes nothing of what the search of its parent
should find. -/
theorem Finds.cons_child {node child : Node H N V} {l : List (Node H N V)} {result : Visit}
    (h : Finds B hash predicate node (node.header :: entriesList l) result)
    (hnone : ∀ e ∈ child.entries, B.isDescendentOf e.1 hash = false) :
    Finds B hash predicate node (node.header :: (child.entries ++ entriesList l)) result := by
  refine h.extend (List.cons_subset_cons _ (List.subset_append_right _ _)) fun e he => ?_
  rcases List.mem_cons.mp he with rfl | he
  · exact .inl List.mem_cons_self
  · rcases List.mem_append.mp he with he | he
    · exact .inr (hnone e he)
    · exact .inl (List.mem_cons_of_mem _ he)

/-- No entry of a subtree at or past the block's height is an ancestor of the block. -/
theorem not_isDescendentOf_of_height_le {node : Node H N V}
    (hedges : node.Edges fun parent child => B.isDescendentOf parent.1 child.1 = true)
    (hheight : node.number = B.height node.hash) (hle : B.height hash ≤ node.number) :
    ∀ e ∈ node.entries, B.isDescendentOf e.1 hash = false := by
  intro e he
  rw [← Bool.not_eq_true]
  intro hanc
  have hbelow : B.height node.hash ≤ B.height e.1 := (entries_descend node hedges e he).height_le
  exact absurd (B.height_lt hanc) (not_lt.mpr (hle.trans (hheight ▸ hbelow)))

mutual
/-- In a subtree of an exact fork tree, the recursive search finds the deepest ancestor of the block
that passes the predicate. -/
theorem visit_finds : ∀ node : Node H N V, (∀ e ∈ node.entries, e.2.1 = B.height e.1) →
    node.Edges (fun parent child => B.isDescendentOf parent.1 child.1 = true) → node.Separated B →
    Finds B hash predicate node node.entries
      (visit hash (B.height hash) B.isDescendentOf predicate node)
  | ⟨blockHash, blockNumber, data, children⟩, hheights, hedges, hsep => by
    rw [edges_iff] at hedges
    rw [visit, entries_eq]
    rw [entries_eq] at hheights
    exact visitFrom_finds ⟨blockHash, blockNumber, data, children⟩ 0 children rfl hheights
      hedges.1 hedges.2 (separated_iff.mp hsep)

theorem visitFrom_finds (node : Node H N V) : ∀ (i : Nat) (l : List (Node H N V)),
    node.children.drop i = l → (∀ e ∈ node.header :: entriesList l, e.2.1 = B.height e.1) →
    (∀ child ∈ l, B.isDescendentOf node.hash child.hash = true) →
    EdgesList (fun parent child => B.isDescendentOf parent.1 child.1 = true) l → SeparatedList B l →
    Finds B hash predicate node (node.header :: entriesList l)
      (visitFrom hash (B.height hash) B.isDescendentOf predicate node i l)
  | i, [], _, _, _, _, _ => by
    have hsingle : ∀ e ∈ node.header :: entriesList ([] : List (Node H N V)), e = node.header := by
      intro e he
      rw [entriesList, List.mem_singleton] at he
      exact he
    rw [visitFrom]
    by_cases hanc : B.isDescendentOf node.hash hash = true
    · rw [if_pos hanc]
      by_cases hpass : predicate node.data = true
      · rw [if_pos hpass, Finds]
        refine ⟨node, rfl, hanc, hpass, fun e he _ _ => ?_⟩
        rw [hsingle e he]
        exact .refl _
      · rw [if_neg hpass, Finds]
        refine ⟨⟨node.header, List.mem_cons_self, hanc⟩, fun e he _ => ?_⟩
        rw [hsingle e he]
        exact Bool.eq_false_iff.mpr hpass
    · rw [if_neg hanc, Finds]
      intro e he
      rw [hsingle e he]
      exact Bool.eq_false_iff.mpr hanc
  | i, child :: l, hdrop, hheights, hparent, hedges, hsep => by
    have hchild : node.children[i]? = some child := by
      have h0 : (node.children.drop i)[0]? = some child := by rw [hdrop]; rfl
      rwa [List.getElem?_drop, Nat.add_zero] at h0
    have hrest : node.children.drop (i + 1) = l := by
      rw [← List.drop_drop, hdrop]
      rfl
    rw [EdgesList] at hedges
    have hsep' := hsep
    rw [SeparatedList] at hsep'
    rw [entriesList] at hheights ⊢
    have hheightsChild : ∀ e ∈ child.entries, e.2.1 = B.height e.1 :=
      fun e he => hheights e (List.mem_cons_of_mem _ (List.mem_append_left _ he))
    have hnext := visitFrom_finds node (i + 1) l hrest
      (fun e he => by
        rcases List.mem_cons.mp he with rfl | he
        · exact hheights _ List.mem_cons_self
        · exact hheights e (List.mem_cons_of_mem _ (List.mem_append_right _ he)))
      (fun c hc => hparent c (List.mem_cons_of_mem _ hc)) hedges.2 hsep'.2.2
    -- the node is an ancestor of every entry below the child
    have hbelow : ∀ e ∈ child.entries, B.isDescendentOf node.hash e.1 = true := fun e he =>
      BlockTree.isDescendentOf_of_ancestorOrSelf (hparent child List.mem_cons_self)
        (entries_descend child hedges.1 e he)
    rw [visitFrom]
    by_cases hlt : child.number < B.height hash
    · rw [if_pos hlt]
      have hvisit := visit_finds child hheightsChild hedges.1 hsep'.1
      cases hresult : visit hash (B.height hash) B.isDescendentOf predicate child with
      | missed =>
        rw [hresult, Finds] at hvisit
        exact hnext.cons_child hvisit
      | passed =>
        rw [hresult, Finds] at hvisit
        obtain ⟨⟨e, he, hanc⟩, hnone⟩ := hvisit
        -- one ancestor below the child: no other child holds one, and the node is one
        have hrestNone := hsep.not_isDescendentOf he hanc
        have hnodeAnc : B.isDescendentOf node.hash hash = true := B.trans (hbelow e he) hanc
        dsimp only
        by_cases hpass : predicate node.data = true
        · rw [if_pos hpass, Finds]
          refine ⟨node, rfl, hnodeAnc, hpass, fun e' he' hanc' hpass' => ?_⟩
          rcases List.mem_cons.mp he' with rfl | he'
          · exact .refl _
          · rcases List.mem_append.mp he' with he' | he'
            · rw [hnone e' he' hanc'] at hpass'
              cases hpass'
            · rw [hrestNone e' he'] at hanc'
              cases hanc'
        · rw [if_neg hpass, Finds]
          refine ⟨⟨node.header, List.mem_cons_self, hnodeAnc⟩, fun e' he' hanc' => ?_⟩
          rcases List.mem_cons.mp he' with rfl | he'
          · exact Bool.eq_false_iff.mpr hpass
          · rcases List.mem_append.mp he' with he' | he'
            · exact hnone e' he' hanc'
            · rw [hrestNone e' he'] at hanc'
              cases hanc'
      | found path =>
        rw [hresult, Finds] at hvisit
        obtain ⟨found, hfound, hdeep⟩ := hvisit
        have hmem := descend_header_mem path hfound
        have hrestNone := hsep.not_isDescendentOf hmem hdeep.ancestor
        dsimp only
        rw [Finds]
        refine ⟨found, by rw [descend, hchild, Option.bind_some]; exact hfound, hdeep.ancestor,
          hdeep.passes, fun e he hanc hpass => ?_⟩
        rcases List.mem_cons.mp he with rfl | he
        · exact .inr (hbelow _ hmem)
        · rcases List.mem_append.mp he with he | he
          · exact hdeep.deepest e he hanc hpass
          · rw [hrestNone e he] at hanc
            cases hanc
    · rw [if_neg hlt]
      exact hnext.cons_child (not_isDescendentOf_of_height_le hedges.1
        (hheightsChild _ (header_mem_entries child)) (not_lt.mp hlt))
end

/-- A tree of which no entry is an ancestor of the block changes nothing of what the loop over the
roots should find. -/
theorem FindsIn.cons_root {nodes : List (Node H N V)} {es : List (H × N × V)} {root : Node H N V}
    {result : Option (List Nat)} (h : FindsIn B hash predicate nodes es result)
    (hnone : ∀ e ∈ root.entries, B.isDescendentOf e.1 hash = false) :
    FindsIn B hash predicate nodes (root.entries ++ es) result := by
  have hnew : ∀ e ∈ root.entries ++ es, e ∈ es ∨ B.isDescendentOf e.1 hash = false := fun e he => by
    rcases List.mem_append.mp he with he | he
    · exact .inr (hnone e he)
    · exact .inl he
  cases result with
  | none =>
    intro e he hanc
    rcases hnew e he with he | hnot
    · exact h e he hanc
    · rw [hnot] at hanc
      cases hanc
  | some path =>
    obtain ⟨node, hnode, hdeep⟩ := h
    exact ⟨node, hnode, hdeep.extend hnew⟩

/-- The loop over the roots from `searched.length` on finds, in the roots of an exact forest, the
deepest ancestor of the block that passes the predicate. -/
theorem findFromRoot_finds : ∀ (roots searched : List (Node H N V)),
    (∀ e ∈ entriesList roots, e.2.1 = B.height e.1) →
    EdgesList (fun parent child => B.isDescendentOf parent.1 child.1 = true) roots →
    SeparatedList B roots →
    FindsIn B hash predicate (searched ++ roots) (entriesList roots)
      (findFromRoot hash (B.height hash) B.isDescendentOf predicate searched.length roots)
  | [], searched, _, _, _ => by
    rw [findFromRoot, FindsIn]
    intro e he
    rw [entriesList] at he
    cases he
  | root :: rest, searched, hheights, hedges, hsep => by
    rw [EdgesList] at hedges
    have hsep' := hsep
    rw [SeparatedList] at hsep'
    rw [entriesList] at hheights ⊢
    have hheightsRoot : ∀ e ∈ root.entries, e.2.1 = B.height e.1 :=
      fun e he => hheights e (List.mem_append_left _ he)
    -- the roots after this one are searched from the next index
    have hnext : FindsIn B hash predicate (searched ++ root :: rest) (entriesList rest)
        (findFromRoot hash (B.height hash) B.isDescendentOf predicate (searched.length + 1)
          rest) := by
      have h := findFromRoot_finds rest (searched ++ [root])
        (fun e he => hheights e (List.mem_append_right _ he)) hedges.2 hsep'.2.2
      rwa [List.length_append, List.length_singleton, List.append_assoc,
        List.singleton_append] at h
    rw [findFromRoot]
    split
    · next hle =>
      exact hnext.cons_root (not_isDescendentOf_of_height_le hedges.1
        (hheightsRoot _ (header_mem_entries root)) hle)
    · obtain ⟨k, hk, hrun⟩ := searchStack_visit hash (B.height hash) B.isDescendentOf predicate root
      have hfuel : 2 * root.size = k + (2 * root.size - k) := by
        rw [size_eq] at ⊢
        omega
      have hvisit : Finds B hash predicate root root.entries
          (visit hash (B.height hash) B.isDescendentOf predicate root) :=
        visit_finds root hheightsRoot hedges.1 hsep'.1
      rw [hfuel, hrun]
      cases hresult : visit hash (B.height hash) B.isDescendentOf predicate root with
      | missed =>
        rw [hresult, Finds] at hvisit
        rw [resume, searchStack_nil]
        exact hnext.cons_root hvisit
      | passed =>
        rw [hresult, Finds] at hvisit
        obtain ⟨⟨e, he, hanc⟩, hnone⟩ := hvisit
        -- an ancestor in this root: none in the roots after it
        have hrestNone := hsep.not_isDescendentOf he hanc
        rw [resume, searchStack_nil]
        intro e' he' hanc'
        rcases List.mem_append.mp he' with he' | he'
        · exact hnone e' he' hanc'
        · rw [hrestNone e' he'] at hanc'
          cases hanc'
      | found path =>
        rw [hresult, Finds] at hvisit
        obtain ⟨found, hfound, hdeep⟩ := hvisit
        have hrestNone := hsep.not_isDescendentOf (descend_header_mem path hfound) hdeep.ancestor
        rw [resume, List.append_nil]
        dsimp only
        rw [framesOf_path path hfound]
        refine ⟨found, ?_, hdeep.extend fun e he => ?_⟩
        · rw [nodeAt, List.getElem?_append_right le_rfl, Nat.sub_self, List.getElem?_cons_zero,
            Option.bind_some]
          exact hfound
        · rcases List.mem_append.mp he with he | he
          · exact .inl he
          · exact .inr (hrestNone e he)

end Finds

/-! ## `find_node_index_where` and `find_node_where` -/

section FindNode

variable [LinearOrder N]

/-- `find_node_where` returns the node at the path `find_node_index_where` returns. -/
theorem findNodeWhere_eq (t : ForkTree H N V) (hash : H) (number : N)
    (isDescendentOf : H → H → Bool) (predicate : V → Bool) :
    t.findNodeWhere hash number isDescendentOf predicate =
      (t.findNodeIndexWhere hash number isDescendentOf predicate).bind (nodeAt t.roots) := by
  rw [findNodeWhere]
  congr 1
  funext path
  rw [nodeAt_eq_childrenAt]

/-- In an exact fork tree, `find_node_index_where` returns a path exactly when a strict ancestor of
the block passes the predicate, to the deepest such node. -/
theorem findNodeIndexWhere_returns_the_deepest_ancestor (B : BlockTree H N) (t : ForkTree H N V)
    (hexact : Exact B t.roots) (hash : H) (predicate : V → Bool) :
    (t.findNodeIndexWhere hash (B.height hash) B.isDescendentOf predicate = none ↔
      ∀ e ∈ entriesList t.roots, B.isDescendentOf e.1 hash = true → predicate e.2.2 = false) ∧
    ∀ path, t.findNodeIndexWhere hash (B.height hash) B.isDescendentOf predicate = some path →
      ∃ node, nodeAt t.roots path = some node ∧ node.header ∈ entriesList t.roots ∧
        Deepest B hash predicate (entriesList t.roots) node ∧
        t.findNodeWhere hash (B.height hash) B.isDescendentOf predicate = some node := by
  have hfinds : FindsIn B hash predicate t.roots (entriesList t.roots)
      (t.findNodeIndexWhere hash (B.height hash) B.isDescendentOf predicate) :=
    findFromRoot_finds t.roots [] hexact.heights (Exact.edgesList t.roots hexact)
      (Exact.separatedList t.roots hexact)
  refine ⟨⟨fun hnone => ?_, fun hall => ?_⟩, fun path hpath => ?_⟩
  · rw [hnone] at hfinds
    exact hfinds
  · -- a path would lead to an ancestor that passes the predicate
    cases hresult : t.findNodeIndexWhere hash (B.height hash) B.isDescendentOf predicate with
    | none => rfl
    | some path =>
      rw [hresult] at hfinds
      obtain ⟨node, hnode, hdeep⟩ := hfinds
      have hfails := hall node.header (header_mem_of_nodeAt hnode) hdeep.ancestor
      rw [header, hdeep.passes] at hfails
      cases hfails
  · rw [hpath] at hfinds
    obtain ⟨node, hnode, hdeep⟩ := hfinds
    refine ⟨node, hnode, header_mem_of_nodeAt hnode, hdeep, ?_⟩
    rw [findNodeWhere_eq, hpath, Option.bind_some, hnode]

def oneBranch : ForkTree Nat Nat Nat :=
  ⟨[⟨1, 1, 10, [⟨2, 2, 20, [⟨4, 4, 40, []⟩]⟩]⟩], none⟩

theorem findNodeIndexWhere_in_one_branch :
    Exact BlockTree.chain oneBranch.roots ∧
    ((oneBranch.findNodeIndexWhere 3 (BlockTree.chain.height 3) BlockTree.chain.isDescendentOf
        fun data => decide (data ≤ 10)) = none ↔
      ∀ e ∈ entriesList oneBranch.roots, BlockTree.chain.isDescendentOf e.1 3 = true →
        decide (e.2.2 ≤ 10) = false) ∧
    ∀ path, (oneBranch.findNodeIndexWhere 3 (BlockTree.chain.height 3)
        BlockTree.chain.isDescendentOf fun data => decide (data ≤ 10)) = some path →
      ∃ node, nodeAt oneBranch.roots path = some node ∧ node.header ∈ entriesList oneBranch.roots ∧
        Deepest BlockTree.chain 3 (fun data => decide (data ≤ 10)) (entriesList oneBranch.roots)
          node ∧
        oneBranch.findNodeWhere 3 (BlockTree.chain.height 3) BlockTree.chain.isDescendentOf
          (fun data => decide (data ≤ 10)) = some node := by
  have hexact : Exact BlockTree.chain oneBranch.roots := ⟨by decide, by decide, by decide⟩
  exact ⟨hexact, findNodeIndexWhere_returns_the_deepest_ancestor BlockTree.chain oneBranch hexact 3
    fun data => decide (data ≤ 10)⟩

/-- Block `2` is the deepest ancestor of block `3`; only block `1` has data at most ten. -/
example : oneBranch.findNodeIndexWhere 3 3 BlockTree.chain.isDescendentOf (fun _ => true) =
      some [0, 0] ∧
    oneBranch.findNodeIndexWhere 3 3 BlockTree.chain.isDescendentOf
      (fun data => decide (data ≤ 10)) = some [0] := by
  decide

end FindNode

end Substrate.ForkTree
