import Substrate.Utils.ForkTree
import Substrate.Lib.Ancestry

/-! # What `drain_filter` keeps

Read through its nodes' entries, the forest `drain_filter` leaves holds, up to order, exactly the
entries the filter keeps (`drainFilter_entries`), and each of its edges was an edge before
(`Node.EdgesList.drainFilter`), so a `WellFormed` fork tree stays one.
-/

namespace Substrate.ForkTree

variable {H N V : Type}
  {node : Node H N V} {retained : List (Option Nat × Node H N V)} {t : ForkTree H N V}
  {l l' : List (Node H N V)}

namespace Node

def header (node : Node H N V) : H × N × V := (node.hash, node.number, node.data)

@[simp] theorem header_mk (hash : H) (number : N) (data : V) (children : List (Node H N V)) :
    (Node.mk hash number data children).header = (hash, number, data) := rfl

@[simp] theorem header_rebalance (node : Node H N V) : node.rebalance.header = node.header := by
  obtain ⟨hash, number, data, children⟩ := node
  rfl

mutual
/-- The headers of the nodes of the subtree, the node's own first. -/
def entries : Node H N V → List (H × N × V)
  | ⟨hash, number, data, children⟩ => (hash, number, data) :: entriesList children

def entriesList : List (Node H N V) → List (H × N × V)
  | [] => []
  | node :: rest => node.entries ++ entriesList rest
end

@[simp] theorem entries_mk (hash : H) (number : N) (data : V) (children : List (Node H N V)) :
    (Node.mk hash number data children).entries = (hash, number, data) :: entriesList children := by
  rw [entries]

theorem entriesList_eq_flatMap : ∀ l : List (Node H N V), entriesList l = l.flatMap entries
  | [] => by rw [entriesList, List.flatMap_nil]
  | node :: rest => by rw [entriesList, List.flatMap_cons, entriesList_eq_flatMap rest]

theorem entriesList_perm (h : l.Perm l') :
    (entriesList l).Perm (entriesList l') := by
  rw [entriesList_eq_flatMap, entriesList_eq_flatMap]
  exact h.flatMap_right entries

theorem entriesList_append (l l' : List (Node H N V)) :
    entriesList (l ++ l') = entriesList l ++ entriesList l' := by
  rw [entriesList_eq_flatMap, entriesList_eq_flatMap, entriesList_eq_flatMap, List.flatMap_append]

theorem mem_rebalanceList : ∀ {l : List (Node H N V)} {node : Node H N V},
    node ∈ rebalanceList l ↔ ∃ node' ∈ l, node'.rebalance = node
  | [], _ => by simp [rebalanceList]
  | head :: rest, node => by
    rw [rebalanceList, List.mem_cons, mem_rebalanceList]
    simp only [List.mem_cons, exists_eq_or_imp]
    rw [eq_comm]

mutual
theorem entries_rebalance : ∀ node : Node H N V, node.rebalance.entries.Perm node.entries
  | ⟨hash, number, data, children⟩ => by
    rw [rebalance, entries_mk, entries_mk]
    exact ((entriesList_perm (List.perm_insertionSort _ _)).trans
      (entriesList_rebalanceList children)).cons _

theorem entriesList_rebalanceList :
    ∀ l : List (Node H N V), (entriesList (rebalanceList l)).Perm (entriesList l)
  | [] => by rw [rebalanceList]
  | node :: rest => by
    rw [rebalanceList, entriesList, entriesList]
    exact (entries_rebalance node).append (entriesList_rebalanceList rest)
end

@[simp] theorem header_withChildren (node : Node H N V) (children : List (Node H N V)) :
    ({ node with children := children } : Node H N V).header = node.header := rfl

theorem entries_leaf (node : Node H N V) :
    ({ node with children := [] } : Node H N V).entries = [node.header] := by
  rw [entries, entriesList]
  rfl

theorem size_eq (node : Node H N V) : node.size = sizeList node.children + 1 := by
  obtain ⟨hash, number, data, children⟩ := node
  rw [size]

theorem sizeList_eq_sum : ∀ l : List (Node H N V), sizeList l = (l.map size).sum
  | [] => by rw [sizeList, List.map_nil, List.sum_nil]
  | node :: rest => by rw [sizeList, sizeList_eq_sum rest, List.map_cons, List.sum_cons]

theorem entries_addChild (parent node : Node H N V) :
    ({ parent with children := parent.children ++ [node] } : Node H N V).entries =
      parent.entries ++ node.entries := by
  obtain ⟨hash, number, data, children⟩ := parent
  simp only [entries_mk, entriesList_append, entriesList, List.append_nil, List.cons_append]

section Kept

variable (filter : H → N → V → FilterAction)

mutual
/-- The headers of the subtree that `drain_filter` keeps: a node kept alone and what is kept below
its children, a node kept whole and its subtree, nothing of a node removed. -/
def kept : Node H N V → List (H × N × V)
  | ⟨hash, number, data, children⟩ =>
    match filter hash number data with
    | .keepNode => (hash, number, data) :: keptList children
    | .keepTree => (hash, number, data) :: entriesList children
    | .remove => []

def keptList : List (Node H N V) → List (H × N × V)
  | [] => []
  | node :: rest => kept node ++ keptList rest
end

theorem keptList_eq_flatMap : ∀ l : List (Node H N V), keptList filter l = l.flatMap (kept filter)
  | [] => by rw [keptList, List.flatMap_nil]
  | node :: rest => by rw [keptList, List.flatMap_cons, keptList_eq_flatMap rest]

theorem keptList_perm (h : l.Perm l') :
    (keptList filter l).Perm (keptList filter l') := by
  rw [keptList_eq_flatMap, keptList_eq_flatMap]
  exact h.flatMap_right (kept filter)

theorem keptList_append (l l' : List (Node H N V)) :
    keptList filter (l ++ l') = keptList filter l ++ keptList filter l' := by
  rw [keptList_eq_flatMap, keptList_eq_flatMap, keptList_eq_flatMap, List.flatMap_append]

mutual
theorem kept_sublist : ∀ node : Node H N V, (kept filter node).Sublist node.entries
  | ⟨hash, number, data, children⟩ => by
    rw [kept, entries_mk]
    split
    · exact (keptList_sublist children).cons_cons _
    · exact List.Sublist.refl _
    · exact List.nil_sublist _

theorem keptList_sublist : ∀ l : List (Node H N V), (keptList filter l).Sublist (entriesList l)
  | [] => by rw [keptList, entriesList]
  | node :: rest => by
    rw [keptList, entriesList]
    exact (kept_sublist node).append (keptList_sublist rest)
end

theorem kept_of_keepNode (node : Node H N V)
    (h : filter node.hash node.number node.data = .keepNode) :
    kept filter node = node.header :: keptList filter node.children := by
  obtain ⟨hash, number, data, children⟩ := node
  simp only at h
  rw [kept, h]
  rfl

theorem kept_of_keepTree (node : Node H N V)
    (h : filter node.hash node.number node.data = .keepTree) : kept filter node = node.entries := by
  obtain ⟨hash, number, data, children⟩ := node
  simp only at h
  rw [kept, h, entries_mk]

theorem kept_of_remove (node : Node H N V)
    (h : filter node.hash node.number node.data = .remove) : kept filter node = [] := by
  obtain ⟨hash, number, data, children⟩ := node
  simp only at h
  rw [kept, h]

end Kept

section Edges

variable (R : H × N × V → H × N × V → Prop)

mutual
/-- Every node of the subtree stands in `R` to each of its children. -/
def Edges : Node H N V → Prop
  | ⟨hash, number, data, children⟩ =>
    (∀ child ∈ children, R (hash, number, data) child.header) ∧ EdgesList children

def EdgesList : List (Node H N V) → Prop
  | [] => True
  | node :: rest => Edges node ∧ EdgesList rest
end

variable {R}

theorem edges_iff :
    node.Edges R ↔ (∀ child ∈ node.children, R node.header child.header) ∧ EdgesList R node.children := by
  obtain ⟨hash, number, data, children⟩ := node
  rw [Edges]
  rfl

theorem edgesList_iff : ∀ {l : List (Node H N V)}, EdgesList R l ↔ ∀ node ∈ l, node.Edges R
  | [] => by simp [EdgesList]
  | node :: rest => by simp [EdgesList, edgesList_iff (l := rest)]

theorem edgesList_append :
    EdgesList R (l ++ l') ↔ EdgesList R l ∧ EdgesList R l' := by
  simp only [edgesList_iff, List.mem_append]
  constructor
  · intro h
    exact ⟨fun node hnode => h node (.inl hnode), fun node hnode => h node (.inr hnode)⟩
  · rintro ⟨h, h'⟩ node (hnode | hnode)
    · exact h node hnode
    · exact h' node hnode

mutual
theorem edges_true : ∀ node : Node H N V, node.Edges fun _ _ => True
  | ⟨_, _, _, children⟩ => by
    rw [Edges]
    exact ⟨fun _ _ => trivial, edgesList_true children⟩

theorem edgesList_true : ∀ l : List (Node H N V), EdgesList (fun _ _ => True) l
  | [] => by rw [EdgesList]; trivial
  | node :: rest => by
    rw [EdgesList]
    exact ⟨edges_true node, edgesList_true rest⟩
end

theorem edges_leaf (node : Node H N V) : ({ node with children := [] } : Node H N V).Edges R := by
  rw [Edges]
  exact ⟨fun child hchild => (by cases hchild), trivial⟩

theorem edges_rebalance : ∀ node : Node H N V, node.Edges R → node.rebalance.Edges R
  | ⟨hash, number, data, children⟩, h => by
    rw [Edges] at h
    rw [rebalance, Edges]
    refine ⟨fun child hchild => ?_, ?_⟩
    · -- the children are those of the node, each rebalanced, in another order
      obtain ⟨child', hchild', rfl⟩ := mem_rebalanceList.mp
        ((List.perm_insertionSort _ _).mem_iff.mp hchild)
      rw [header_rebalance]
      exact h.1 child' hchild'
    · rw [edgesList_iff] at h ⊢
      intro child hchild
      obtain ⟨child', hchild', rfl⟩ := mem_rebalanceList.mp
        ((List.perm_insertionSort _ _).mem_iff.mp hchild)
      exact edges_rebalance child' (h.2 child' hchild')

end Edges

end Node

open Node

/-! ## The passes of `drain_filter` -/

section Passes

variable {R : H × N × V → H × N × V → Prop}

/-- What the passes keep of the retained nodes: each node's parent is retained before it and
stands in `R` to it, and each retained subtree has the edges `R`. -/
structure Retained (R : H × N × V → H × N × V → Prop) (retained : List (Option Nat × Node H N V)) :
    Prop where
  before : ∀ (k i : Nat) (node : Node H N V), retained[k]? = some (some i, node) → i < k
  parent : ∀ (k i : Nat) (node : Node H N V), retained[k]? = some (some i, node) →
    ∃ p, retained[i]? = some p ∧ R p.2.header node.header
  edges : ∀ (k : Nat) (e : Option Nat × Node H N V), retained[k]? = some e → e.2.Edges R

/-- A queue against the retained nodes: each queued subtree has the edges `R`, and a queued node's
parent is retained and stands in `R` to it. -/
structure Queued (R : H × N × V → H × N × V → Prop) (retained queue : List (Option Nat × Node H N V)) :
    Prop where
  edges : ∀ e ∈ queue, e.2.Edges R
  parent : ∀ e ∈ queue, ∀ i : Nat, e.1 = some i →
    ∃ p, retained[i]? = some p ∧ R p.2.header e.2.header

theorem getElem?_append_of_getElem? {α : Type} {l : List α} (l' : List α) {i : Nat} {a : α}
    (h : l[i]? = some a) : (l ++ l')[i]? = some a := by
  rw [List.getElem?_append_left (List.getElem?_eq_some_iff.mp h).1, h]

theorem Retained.nil : Retained R ([] : List (Option Nat × Node H N V)) where
  before _ _ _ h := by cases h
  parent _ _ _ h := by cases h
  edges _ _ h := by cases h

theorem Queued.nil : Queued R retained [] where
  edges _ he := by cases he
  parent _ he := by cases he

theorem Queued.mono {retained queue : List (Option Nat × Node H N V)} (h : Queued R retained queue)
    (more : List (Option Nat × Node H N V)) : Queued R (retained ++ more) queue := by
  refine ⟨h.edges, fun e he i hi => ?_⟩
  obtain ⟨p, hp, hR⟩ := h.parent e he i hi
  exact ⟨p, getElem?_append_of_getElem? more hp, hR⟩

theorem Queued.tail {entry : Option Nat × Node H N V}
    {queue : List (Option Nat × Node H N V)} (h : Queued R retained (entry :: queue)) :
    Queued R retained queue :=
  ⟨fun e he => h.edges e (List.mem_cons_of_mem _ he),
    fun e he => h.parent e (List.mem_cons_of_mem _ he)⟩

theorem Queued.append {retained queue queue' : List (Option Nat × Node H N V)}
    (h : Queued R retained queue) (h' : Queued R retained queue') :
    Queued R retained (queue ++ queue') := by
  refine ⟨fun e he => ?_, fun e he => ?_⟩
  · rcases List.mem_append.mp he with he | he
    · exact h.edges e he
    · exact h'.edges e he
  · rcases List.mem_append.mp he with he | he
    · exact h.parent e he
    · exact h'.parent e he

/-- A node retained at the end, whose parent is retained and stands in `R` to it. -/
theorem Retained.push (h : Retained R retained)
    {parent : Option Nat}
    (hparent : ∀ i : Nat, parent = some i → ∃ p, retained[i]? = some p ∧ R p.2.header node.header)
    (hedges : node.Edges R) : Retained R (retained ++ [(parent, node)]) := by
  have hat : ∀ (k : Nat) (e : Option Nat × Node H N V), (retained ++ [(parent, node)])[k]? = some e →
      retained[k]? = some e ∨ (k = retained.length ∧ e = (parent, node)) := by
    intro k e hk
    rcases Nat.lt_or_ge k retained.length with hlt | hge
    · rw [List.getElem?_append_left hlt] at hk
      exact .inl hk
    · rw [List.getElem?_append_right hge, List.getElem?_singleton] at hk
      split at hk
      · next hzero =>
        cases hk
        exact .inr ⟨by omega, rfl⟩
      · cases hk
  refine ⟨fun k i node' hk => ?_, fun k i node' hk => ?_, fun k e hk => ?_⟩
  · rcases hat k _ hk with hk | ⟨rfl, he⟩
    · exact h.before k i node' hk
    · cases he
      obtain ⟨p, hp, -⟩ := hparent i rfl
      exact (List.getElem?_eq_some_iff.mp hp).1
  · rcases hat k _ hk with hk | ⟨rfl, he⟩
    · obtain ⟨p, hp, hR⟩ := h.parent k i node' hk
      exact ⟨p, getElem?_append_of_getElem? _ hp, hR⟩
    · cases he
      obtain ⟨p, hp, hR⟩ := hparent i rfl
      exact ⟨p, getElem?_append_of_getElem? _ hp, hR⟩
  · rcases hat k e hk with hk | ⟨rfl, rfl⟩
    · exact h.edges k e hk
    · exact hedges

variable (filter : H → N → V → FilterAction)

/-- A pass keeps the invariant of the retained nodes and queues the next pass against them. -/
theorem filterQueue_retained :
    ∀ (queue retained : List (Option Nat × Node H N V)) (removed : List (Node H N V))
      (next : List (Option Nat × Node H N V)),
      Retained R retained → Queued R retained queue → Queued R retained next →
      Retained R (filterQueue filter queue (retained, removed, next)).1 ∧
        Queued R (filterQueue filter queue (retained, removed, next)).1
          (filterQueue filter queue (retained, removed, next)).2.2
  | [], _, _, _, hretained, _, hnext => ⟨hretained, hnext⟩
  | (parent, node) :: rest, retained, removed, next, hretained, hqueue, hnext => by
    have hnode : node.Edges R := hqueue.edges _ List.mem_cons_self
    have hparent := hqueue.parent _ List.mem_cons_self
    rw [filterQueue]
    split
    · -- the node stays alone, and its children are queued under its index
      have hchildren : Queued R (retained ++ [(parent, { node with children := [] })])
          (node.children.reverse.map fun child => (some retained.length, child)) := by
        refine ⟨fun e he => ?_, fun e he i hi => ?_⟩
        · obtain ⟨child, hchild, rfl⟩ := List.mem_map.mp he
          exact edgesList_iff.mp (edges_iff.mp hnode).2 child (List.mem_reverse.mp hchild)
        · obtain ⟨child, hchild, rfl⟩ := List.mem_map.mp he
          cases hi
          exact ⟨_, List.getElem?_concat_length,
            (edges_iff.mp hnode).1 child (List.mem_reverse.mp hchild)⟩
      exact filterQueue_retained rest _ _ _ (hretained.push hparent (edges_leaf node))
        (hqueue.tail.mono _) ((hnext.mono _).append hchildren)
    · exact filterQueue_retained rest _ _ _ (hretained.push hparent hnode) (hqueue.tail.mono _)
        (hnext.mono _)
    · exact filterQueue_retained rest _ _ _ hretained hqueue.tail hnext

/-- A pass moves what is kept of the queue, up to order, into the retained nodes and the next
queue. -/
theorem filterQueue_perm :
    ∀ (queue retained : List (Option Nat × Node H N V)) (removed : List (Node H N V))
      (next : List (Option Nat × Node H N V)),
      (entriesList ((filterQueue filter queue (retained, removed, next)).1.map Prod.snd) ++
        keptList filter ((filterQueue filter queue (retained, removed, next)).2.2.map Prod.snd)).Perm
      (entriesList (retained.map Prod.snd) ++ keptList filter (queue.map Prod.snd) ++
        keptList filter (next.map Prod.snd))
  | [], retained, removed, next => by
    rw [filterQueue, List.map_nil, keptList, List.append_nil]
  | (parent, node) :: rest, retained, removed, next => by
    rw [filterQueue]
    split
    · next hkeep =>
      refine (filterQueue_perm rest _ _ _).trans ?_
      have hreverse := keptList_perm filter (List.reverse_perm node.children)
      simp only [List.map_append, List.map_map, Function.comp_def, List.map_id', List.map_cons,
        List.map_nil, entriesList_append, keptList_append, entriesList, entries_leaf, keptList,
        kept_of_keepNode filter _ hkeep, List.append_nil] at hreverse ⊢
      rw [← Multiset.coe_eq_coe] at hreverse ⊢
      simp only [← Multiset.coe_add, ← Multiset.cons_coe, hreverse, ← Multiset.singleton_add]
      abel
    · next hkeep =>
      refine (filterQueue_perm rest _ _ _).trans ?_
      simp only [List.map_append, List.map_cons, List.map_nil, entriesList_append, entriesList,
        keptList, kept_of_keepTree filter _ hkeep, List.append_nil]
      rw [← Multiset.coe_eq_coe]
      simp only [← Multiset.coe_add]
      abel
    · next hremove =>
      refine (filterQueue_perm rest _ _ _).trans ?_
      simp only [List.map_cons, keptList, kept_of_remove filter _ hremove, List.nil_append]
      exact List.Perm.refl _

/-- A pass queues its children in place of each node it keeps alone, so the next queue is smaller
by at least one node for each node of this one. -/
theorem filterQueue_size :
    ∀ (queue retained : List (Option Nat × Node H N V)) (removed : List (Node H N V))
      (next : List (Option Nat × Node H N V)),
      sizeList ((filterQueue filter queue (retained, removed, next)).2.2.map Prod.snd) +
          queue.length ≤ sizeList (next.map Prod.snd) + sizeList (queue.map Prod.snd)
  | [], _, _, _ => by simp [filterQueue, sizeList]
  | (parent, node) :: rest, retained, removed, next => by
    have hnode := size_eq node
    rw [filterQueue]
    split
    · have hrest := filterQueue_size rest (retained ++ [(parent, { node with children := [] })])
        removed (next ++ node.children.reverse.map fun child => (some retained.length, child))
      simp only [sizeList_eq_sum, List.map_append, List.sum_append, List.map_map,
        Function.comp_def, List.map_id', List.map_reverse, List.sum_reverse, List.map_cons,
        List.sum_cons, List.length_cons] at hrest hnode ⊢
      omega
    · have hrest := filterQueue_size rest (retained ++ [(parent, node)]) removed next
      simp only [sizeList_eq_sum, List.map_cons, List.sum_cons, List.length_cons] at hrest hnode ⊢
      omega
    · have hrest := filterQueue_size rest retained (removed ++ [node]) next
      simp only [sizeList_eq_sum, List.map_cons, List.sum_cons, List.length_cons] at hrest hnode ⊢
      omega

theorem filterLevels_retained :
    ∀ (fuel : Nat) (queue retained : List (Option Nat × Node H N V)) (removed : List (Node H N V)),
      Retained R retained → Queued R retained queue →
      Retained R (filterLevels filter fuel queue retained removed).1
  | 0, _, _, _, hretained, _ => hretained
  | _ + 1, [], _, _, hretained, _ => hretained
  | fuel + 1, entry :: queue, retained, removed, hretained, hqueue => by
    rw [filterLevels]
    obtain ⟨hretained', hnext⟩ := filterQueue_retained filter (entry :: queue) retained removed []
      hretained hqueue Queued.nil
    exact filterLevels_retained fuel _ _ _ hretained' hnext

/-- With fuel above the size of the queue, the passes retain, up to order, what is kept of it. -/
theorem filterLevels_perm :
    ∀ (fuel : Nat) (queue retained : List (Option Nat × Node H N V)) (removed : List (Node H N V)),
      sizeList (queue.map Prod.snd) < fuel →
      (entriesList ((filterLevels filter fuel queue retained removed).1.map Prod.snd)).Perm
        (entriesList (retained.map Prod.snd) ++ keptList filter (queue.map Prod.snd))
  | 0, _, _, _, hfuel => absurd hfuel (Nat.not_lt_zero _)
  | _ + 1, [], retained, _, _ => by rw [filterLevels, List.map_nil, keptList, List.append_nil]
  | fuel + 1, entry :: queue, retained, removed, hfuel => by
    rw [filterLevels]
    -- each pass leaves a queue smaller by at least one node
    have hsize := filterQueue_size filter (entry :: queue) retained removed []
    have hperm := filterQueue_perm filter (entry :: queue) retained removed []
    simp only [List.map_nil, sizeList, keptList, List.append_nil, List.length_cons] at hsize hperm
    generalize filterQueue filter (entry :: queue) (retained, removed, []) = result at hsize hperm ⊢
    obtain ⟨retained', removed', next⟩ := result
    dsimp only at hsize hperm
    exact (filterLevels_perm fuel next retained' removed' (by omega)).trans hperm

/-! ## The rebuild -/

/-- The last retained node has the edges `R`, its parent is retained before it and stands in `R`
to it, and the others keep the invariant. -/
theorem Retained.of_concat {parent : Option Nat}
    (h : Retained R (retained ++ [(parent, node)])) :
    Retained R retained ∧ node.Edges R ∧
      ∀ i : Nat, parent = some i → ∃ p, retained[i]? = some p ∧ R p.2.header node.header := by
  have hlast : (retained ++ [(parent, node)])[retained.length]? = some (parent, node) :=
    List.getElem?_concat_length
  -- a parent retained before a node of `retained` is itself in `retained`
  have hback : ∀ (k i : Nat) (p : Option Nat × Node H N V), i < k → k ≤ retained.length →
      (retained ++ [(parent, node)])[i]? = some p → retained[i]? = some p := by
    intro k i p hik hk hp
    rwa [List.getElem?_append_left (by omega)] at hp
  refine ⟨⟨fun k i node' hk => ?_, fun k i node' hk => ?_, fun k e hk => ?_⟩,
    h.edges _ _ hlast, fun i hi => ?_⟩
  · exact h.before k i node' (getElem?_append_of_getElem? _ hk)
  · have hk' := getElem?_append_of_getElem? [(parent, node)] hk
    obtain ⟨p, hp, hR⟩ := h.parent k i node' hk'
    exact ⟨p, hback k i p (h.before k i node' hk') (List.getElem?_eq_some_iff.mp hk).1.le hp, hR⟩
  · exact h.edges k e (getElem?_append_of_getElem? _ hk)
  · subst hi
    obtain ⟨p, hp, hR⟩ := h.parent _ i node hlast
    exact ⟨p, hback _ i p (h.before _ i node hlast) le_rfl hp, hR⟩

theorem edges_addChild {parent node : Node H N V} (hparent : parent.Edges R)
    (hR : R parent.header node.header) (hnode : node.Edges R) :
    ({ parent with children := parent.children ++ [node] } : Node H N V).Edges R := by
  rw [edges_iff] at hparent ⊢
  refine ⟨fun child hchild => ?_, ?_⟩
  · rcases List.mem_append.mp hchild with hchild | hchild
    · exact hparent.1 child hchild
    · rw [List.mem_singleton.mp hchild]
      exact hR
  · rw [edgesList_iff] at hparent ⊢
    intro child hchild
    rcases List.mem_append.mp hchild with hchild | hchild
    · exact hparent.2 child hchild
    · rw [List.mem_singleton.mp hchild]
      exact hnode

/-- Attaching a node as the last child of a retained parent keeps the invariant. -/
theorem Retained.addChild (h : Retained R retained)
    {i : Nat} {p : Option Nat × Node H N V} (hp : retained[i]? = some p)
    (hR : R p.2.header node.header) (hnode : node.Edges R) :
    Retained R (retained.modify i fun entry =>
      (entry.1, { entry.2 with children := entry.2.children ++ [node] })) := by
  -- the change keeps every parent index and every header
  have hat : ∀ (k : Nat) (e : Option Nat × Node H N V),
      (retained.modify i fun entry =>
        (entry.1, { entry.2 with children := entry.2.children ++ [node] }))[k]? = some e →
      ∃ a, retained[k]? = some a ∧ e.1 = a.1 ∧ e.2.header = a.2.header ∧
        (e.2.Edges R ∨ (k = i ∧ e = (a.1, { a.2 with children := a.2.children ++ [node] }))) := by
    intro k e hk
    rw [List.getElem?_modify] at hk
    obtain ⟨a, ha, he⟩ := Option.map_eq_some_iff.mp hk
    refine ⟨a, ha, ?_, ?_, ?_⟩
    · split at he <;> (subst he; rfl)
    · split at he <;> (subst he; rfl)
    · split at he
      · next hik => exact .inr ⟨hik.symm, he.symm⟩
      · subst he
        exact .inl (h.edges k a ha)
  refine ⟨fun k i' node' hk => ?_, fun k i' node' hk => ?_, fun k e hk => ?_⟩
  · obtain ⟨⟨a1, a2⟩, ha, h1, -, -⟩ := hat k _ hk
    simp only at h1
    subst h1
    exact h.before k i' a2 ha
  · obtain ⟨⟨a1, a2⟩, ha, h1, h2, -⟩ := hat k _ hk
    simp only at h1 h2
    subst h1
    obtain ⟨q, hq, hRq⟩ := h.parent k i' a2 ha
    refine ⟨_, by rw [List.getElem?_modify, hq]; rfl, ?_⟩
    rw [h2]
    split <;> exact hRq
  · obtain ⟨a, ha, -, -, he | ⟨rfl, rfl⟩⟩ := hat k e hk
    · exact he
    · rw [hp] at ha
      cases ha
      exact edges_addChild (h.edges _ _ hp) hR hnode

theorem entriesList_modify_addChild (node : Node H N V) :
    ∀ (retained : List (Option Nat × Node H N V)) (i : Nat), i < retained.length →
      (entriesList ((retained.modify i fun entry =>
        (entry.1, { entry.2 with children := entry.2.children ++ [node] })).map Prod.snd)).Perm
      (entriesList (retained.map Prod.snd) ++ node.entries)
  | [], _, hi => absurd hi (Nat.not_lt_zero _)
  | entry :: retained, 0, _ => by
    rw [List.modify_zero_cons]
    simp only [List.map_cons, entriesList, entries_addChild, List.append_assoc]
    exact List.Perm.append_left _ List.perm_append_comm
  | entry :: retained, i + 1, hi => by
    rw [List.modify_succ_cons]
    simp only [List.map_cons, entriesList, List.append_assoc]
    exact (entriesList_modify_addChild node retained i (by simpa using hi)).append_left _

/-- The rebuilt forest has the edges `R`. -/
theorem rebuild_edges :
    ∀ (fuel : Nat) (retained : List (Option Nat × Node H N V)) (roots : List (Node H N V)),
      Retained R retained → EdgesList R roots → EdgesList R (rebuild fuel retained roots)
  | 0, _, _, _, hroots => hroots
  | fuel + 1, retained, roots, hretained, hroots => by
    rw [rebuild]
    split
    · exact hroots
    · next node hlast =>
      -- the last node becomes the last root
      obtain ⟨retained, rfl⟩ := List.getLast?_eq_some_iff.mp hlast
      obtain ⟨hretained', hnode, -⟩ := hretained.of_concat
      rw [List.dropLast_concat]
      exact rebuild_edges fuel _ _ hretained' (edgesList_append.mpr ⟨hroots, hnode, trivial⟩)
    · next i node hlast =>
      -- the last node becomes the last child of its parent
      obtain ⟨retained, rfl⟩ := List.getLast?_eq_some_iff.mp hlast
      obtain ⟨hretained', hnode, hparent⟩ := hretained.of_concat
      obtain ⟨p, hp, hR⟩ := hparent i rfl
      rw [List.dropLast_concat]
      exact rebuild_edges fuel _ _ (hretained'.addChild hp hR hnode) hroots

/-- With fuel for every retained node, the rebuilt forest holds, up to order, the roots it starts
from and the retained nodes. -/
theorem rebuild_perm :
    ∀ (fuel : Nat) (retained : List (Option Nat × Node H N V)) (roots : List (Node H N V)),
      Retained R retained → retained.length ≤ fuel →
      (entriesList (rebuild fuel retained roots)).Perm
        (entriesList roots ++ entriesList (retained.map Prod.snd))
  | 0, retained, roots, _, hfuel => by
    rw [List.length_eq_zero_iff.mp (Nat.le_zero.mp hfuel), rebuild, List.map_nil, entriesList,
      List.append_nil]
  | fuel + 1, retained, roots, hretained, hfuel => by
    rw [rebuild]
    split
    · next hlast =>
      rw [List.getLast?_eq_none_iff.mp hlast, List.map_nil, entriesList, List.append_nil]
    · next node hlast =>
      obtain ⟨retained, rfl⟩ := List.getLast?_eq_some_iff.mp hlast
      obtain ⟨hretained', -, -⟩ := hretained.of_concat
      rw [List.length_append, List.length_singleton] at hfuel
      rw [List.dropLast_concat]
      refine (rebuild_perm fuel retained _ hretained' (by omega)).trans ?_
      simp only [entriesList_append, List.map_append, List.map_cons, List.map_nil, entriesList,
        List.append_nil, List.append_assoc]
      exact List.Perm.append_left _ List.perm_append_comm
    · next i node hlast =>
      obtain ⟨retained, rfl⟩ := List.getLast?_eq_some_iff.mp hlast
      obtain ⟨hretained', hnode, hparent⟩ := hretained.of_concat
      obtain ⟨p, hp, hR⟩ := hparent i rfl
      rw [List.length_append, List.length_singleton] at hfuel
      rw [List.dropLast_concat]
      refine (rebuild_perm fuel _ roots (hretained'.addChild hp hR hnode)
        (by rw [List.length_modify]; omega)).trans ?_
      have hmodify := entriesList_modify_addChild node retained i
        (List.getElem?_eq_some_iff.mp hp).1
      simp only [List.map_append, List.map_cons, List.map_nil, entriesList_append, entriesList,
        List.append_nil] at hmodify ⊢
      exact hmodify.append_left _

/-! ## The drain -/

theorem entriesList_rebalance (t : ForkTree H N V) :
    (entriesList t.rebalance.roots).Perm (entriesList t.roots) :=
  (entriesList_perm (List.perm_insertionSort _ _)).trans (entriesList_rebalanceList t.roots)

theorem Node.EdgesList.rebalance (h : EdgesList R t.roots) :
    EdgesList R t.rebalance.roots := by
  rw [edgesList_iff] at h ⊢
  intro node hnode
  obtain ⟨node', hnode', rfl⟩ := mem_rebalanceList.mp ((List.perm_insertionSort _ _).mem_iff.mp hnode)
  exact edges_rebalance node' (h node' hnode')

/-- The roots start the passes as a queue with no parents. -/
theorem queued_roots {roots : List (Node H N V)} (h : EdgesList R roots) :
    Queued R [] (roots.reverse.map fun root => (none, root)) := by
  refine ⟨fun e he => ?_, fun e he i hi => ?_⟩
  · obtain ⟨root, hroot, rfl⟩ := List.mem_map.mp he
    exact edgesList_iff.mp h root (List.mem_reverse.mp hroot)
  · obtain ⟨root, -, rfl⟩ := List.mem_map.mp he
    cases hi

/-- Every parent-child pair of the forest `drain_filter` leaves is one of the forest before it. -/
theorem Node.EdgesList.drainFilter (h : EdgesList R t.roots) :
    EdgesList R (t.drainFilter filter).1.roots := by
  have hretained := filterLevels_retained filter (sizeList t.roots + 1) _ [] [] Retained.nil
    (queued_roots h)
  rw [ForkTree.drainFilter]
  generalize filterLevels filter (sizeList t.roots + 1)
    (t.roots.reverse.map fun root => (none, root)) [] [] = result at hretained ⊢
  obtain ⟨retained, removed⟩ := result
  have hroots : EdgesList R (rebuild retained.length retained []) :=
    rebuild_edges _ _ [] hretained trivial
  dsimp only
  split
  · exact hroots
  · exact Node.EdgesList.rebalance (t := ⟨_, t.bestFinalizedNumber⟩) hroots

/-- `drain_filter` keeps, up to order, exactly the entries its filter keeps. -/
theorem drainFilter_entries (t : ForkTree H N V) :
    (entriesList (t.drainFilter filter).1.roots).Perm (keptList filter t.roots) := by
  have hretained := filterLevels_retained filter (sizeList t.roots + 1) _ [] []
    (Retained.nil (R := fun _ _ => True)) (queued_roots (edgesList_true t.roots))
  have hperm := filterLevels_perm filter (sizeList t.roots + 1)
    (t.roots.reverse.map fun root => (none, root)) [] [] (by
      simp only [List.map_map, Function.comp_def, List.map_id', sizeList_eq_sum, List.map_reverse,
        List.sum_reverse]
      omega)
  rw [ForkTree.drainFilter]
  generalize filterLevels filter (sizeList t.roots + 1)
    (t.roots.reverse.map fun root => (none, root)) [] [] = result at hretained hperm ⊢
  obtain ⟨retained, removed⟩ := result
  -- the passes retain what is kept of the roots, and the rebuild puts all of it back in the forest
  have hroots : (entriesList (rebuild retained.length retained [])).Perm
      (keptList filter t.roots) := by
    refine (rebuild_perm _ _ [] hretained le_rfl).trans ?_
    simp only [List.map_map, Function.comp_def, List.map_id', List.map_nil, entriesList,
      List.nil_append] at hperm ⊢
    exact hperm.trans (keptList_perm filter (List.reverse_perm t.roots))
  dsimp only
  split
  · exact hroots
  · exact (entriesList_rebalance ⟨_, t.bestFinalizedNumber⟩).trans hroots

/-- Every entry of the forest `drain_filter` leaves is an entry of the forest before it. -/
theorem mem_entriesList_of_drainFilter {e : H × N × V}
    (he : e ∈ entriesList (t.drainFilter filter).1.roots) : e ∈ entriesList t.roots :=
  (keptList_sublist filter t.roots).subset ((drainFilter_entries filter t).subset he)

end Passes

/-! ## Fork trees over a tree of blocks -/

section WellFormed

open Ancestry

variable [LinearOrder N]

/-- A fork tree over a tree of blocks: each node's number is the height of its block, and each
child's block descends from its parent's. -/
structure WellFormed (B : BlockTree H N) (t : ForkTree H N V) : Prop where
  heights : ∀ e ∈ entriesList t.roots, e.2.1 = B.height e.1
  edges : EdgesList (fun parent child => B.isDescendentOf parent.1 child.1 = true) t.roots

variable {B : BlockTree H N}

mutual
/-- Every node of a subtree whose children descend from their parents is at a descendant of the
subtree's block, or at the block itself. -/
theorem entries_descend : ∀ node : Node H N V,
    node.Edges (fun parent child => B.isDescendentOf parent.1 child.1 = true) →
      ∀ e ∈ node.entries, B.AncestorOrSelf node.hash e.1
  | ⟨blockHash, number, data, children⟩, hedges, e, he => by
    rw [Edges] at hedges
    rw [entries_mk, List.mem_cons] at he
    rcases he with rfl | he
    · exact .refl _
    · obtain ⟨child, hchild, hanc⟩ := entriesList_descend children hedges.2 e he
      exact .inr (BlockTree.isDescendentOf_of_ancestorOrSelf (hedges.1 child hchild) hanc)

theorem entriesList_descend : ∀ l : List (Node H N V),
    EdgesList (fun parent child => B.isDescendentOf parent.1 child.1 = true) l →
      ∀ e ∈ entriesList l, ∃ node ∈ l, B.AncestorOrSelf node.hash e.1
  | [], _, e, he => by
    rw [entriesList] at he
    cases he
  | node :: rest, hedges, e, he => by
    rw [EdgesList] at hedges
    rw [entriesList, List.mem_append] at he
    rcases he with he | he
    · exact ⟨node, List.mem_cons_self, entries_descend node hedges.1 e he⟩
    · obtain ⟨node', hnode', hanc⟩ := entriesList_descend rest hedges.2 e he
      exact ⟨node', List.mem_cons_of_mem _ hnode', hanc⟩
end

/-- `drain_filter` leaves a well-formed fork tree well-formed, whatever its filter. -/
theorem WellFormed.drainFilter (h : t.WellFormed B)
    (filter : H → N → V → FilterAction) : (t.drainFilter filter).1.WellFormed B :=
  ⟨fun e he => h.heights e (mem_entriesList_of_drainFilter filter he), h.edges.drainFilter filter⟩

end WellFormed

end Substrate.ForkTree
