import Substrate.Utils.ForkTreeImport

/-! # Fork trees that mirror a tree of blocks

`Exact`: distinct hashes, numbers the heights, and ancestry the strict ancestry of the blocks.
Each child descends from its parent and siblings lie on forks apart.
-/

namespace Substrate.ForkTree

open Ancestry

variable {H N V : Type}

namespace Node

mutual
def ancestry : Node H N V → List ((H × N × V) × (H × N × V))
  | ⟨hash, number, data, children⟩ =>
    (entriesList children).map (fun e => ((hash, number, data), e)) ++ ancestryList children

def ancestryList : List (Node H N V) → List ((H × N × V) × (H × N × V))
  | [] => []
  | node :: rest => node.ancestry ++ ancestryList rest
end

variable (node : Node H N V)

theorem ancestry_eq :
    node.ancestry = (entriesList node.children).map (fun e => (node.header, e)) ++
      ancestryList node.children := by
  obtain ⟨hash, number, data, children⟩ := node
  rw [ancestry]
  rfl

theorem entries_eq : node.entries = node.header :: entriesList node.children := by
  obtain ⟨hash, number, data, children⟩ := node
  rw [entries_mk]
  rfl

mutual
/-- Both ends of an ancestry pair of a subtree are entries of it. -/
theorem mem_entries_of_mem_ancestry : ∀ (node : Node H N V) {p : (H × N × V) × (H × N × V)},
    p ∈ node.ancestry → p.1 ∈ node.entries ∧ p.2 ∈ node.entries
  | ⟨hash, number, data, children⟩, p, hp => by
    rw [ancestry, List.mem_append, List.mem_map] at hp
    rw [entries_mk, List.mem_cons, List.mem_cons]
    rcases hp with ⟨e, he, rfl⟩ | hp
    · exact ⟨.inl rfl, .inr he⟩
    · obtain ⟨h₁, h₂⟩ := mem_entriesList_of_mem_ancestryList children hp
      exact ⟨.inr h₁, .inr h₂⟩

theorem mem_entriesList_of_mem_ancestryList : ∀ (l : List (Node H N V))
    {p : (H × N × V) × (H × N × V)}, p ∈ ancestryList l → p.1 ∈ entriesList l ∧ p.2 ∈ entriesList l
  | [], p, hp => by
    rw [ancestryList] at hp
    cases hp
  | node :: rest, p, hp => by
    rw [ancestryList, List.mem_append] at hp
    rw [entriesList, List.mem_append, List.mem_append]
    rcases hp with hp | hp
    · obtain ⟨h₁, h₂⟩ := mem_entries_of_mem_ancestry node hp
      exact ⟨.inl h₁, .inl h₂⟩
    · obtain ⟨h₁, h₂⟩ := mem_entriesList_of_mem_ancestryList rest hp
      exact ⟨.inr h₁, .inr h₂⟩
end

theorem ancestryList_subset_ancestry :
    ancestryList node.children ⊆ node.ancestry := by
  rw [ancestry_eq]
  exact List.subset_append_right _ _

theorem mem_entriesList {l : List (Node H N V)} {e : H × N × V} :
    e ∈ entriesList l ↔ ∃ node ∈ l, e ∈ node.entries := by
  rw [entriesList_eq_flatMap, List.mem_flatMap]

end Node

open Node

theorem fst_ne_of_nodup_append {l l' : List (H × N × V)} (h : ((l ++ l').map Prod.fst).Nodup)
    {x y : H × N × V} (hx : x ∈ l) (hy : y ∈ l') : x.1 ≠ y.1 := by
  rw [List.map_append, List.nodup_append] at h
  exact h.2.2 x.1 (List.mem_map_of_mem hx) y.1 (List.mem_map_of_mem hy)

variable [LinearOrder N]

/-! ## Exact fork trees -/

/-- A forest over the blocks of `B`: distinct hashes, the height of its block as each node's number,
and the strict ancestry of `B` as the ancestry of the forest. -/
structure Exact (B : BlockTree H N) (nodes : List (Node H N V)) : Prop where
  nodup : ((entriesList nodes).map Prod.fst).Nodup
  heights : ∀ e ∈ entriesList nodes, e.2.1 = B.height e.1
  ancestry : ∀ x ∈ entriesList nodes, ∀ y ∈ entriesList nodes,
    (x, y) ∈ ancestryList nodes ↔ B.isDescendentOf x.1 y.1 = true

namespace Exact

variable {B : BlockTree H N} {node : Node H N V} {rest : List (Node H N V)}

theorem nodup_cons (h : Exact B (node :: rest)) :
    ((node.entries ++ entriesList rest).map Prod.fst).Nodup := by
  have hnodup := h.nodup
  rw [entriesList] at hnodup
  exact hnodup

/-- The descendants in `B` of an entry of the first tree that are entries of the forest are entries
of that tree. -/
theorem mem_of_isDescendentOf_head (h : Exact B (node :: rest)) {x y : H × N × V}
    (hx : x ∈ node.entries) (hy : y ∈ entriesList (node :: rest))
    (hxy : B.isDescendentOf x.1 y.1 = true) : y ∈ node.entries := by
  have hmem : x ∈ entriesList (node :: rest) := by
    rw [entriesList]
    exact List.mem_append_left _ hx
  have hpair := (h.ancestry x hmem y hy).mpr hxy
  rw [ancestryList, List.mem_append] at hpair
  rcases hpair with hpair | hpair
  · exact (mem_entries_of_mem_ancestry node hpair).2
  · -- a pair of the other trees would put `x` in two of them
    have hx' := (mem_entriesList_of_mem_ancestryList rest hpair).1
    exact absurd rfl (fst_ne_of_nodup_append h.nodup_cons hx hx')

theorem mem_of_isDescendentOf_tail (h : Exact B (node :: rest)) {x y : H × N × V}
    (hx : x ∈ entriesList rest) (hy : y ∈ entriesList (node :: rest))
    (hxy : B.isDescendentOf x.1 y.1 = true) : y ∈ entriesList rest := by
  have hmem : x ∈ entriesList (node :: rest) := by
    rw [entriesList]
    exact List.mem_append_right _ hx
  have hpair := (h.ancestry x hmem y hy).mpr hxy
  rw [ancestryList, List.mem_append] at hpair
  rcases hpair with hpair | hpair
  · have hx' := (mem_entries_of_mem_ancestry node hpair).1
    exact absurd rfl (fst_ne_of_nodup_append h.nodup_cons hx' hx)
  · exact (mem_entriesList_of_mem_ancestryList rest hpair).2

theorem tail (h : Exact B (node :: rest)) : Exact B rest where
  nodup := by
    have hnodup := h.nodup
    rw [entriesList, List.map_append] at hnodup
    exact (List.nodup_append.mp hnodup).2.1
  heights e he := h.heights e (by rw [entriesList]; exact List.mem_append_right _ he)
  ancestry x hx y hy := by
    have hx' : x ∈ entriesList (node :: rest) := by rw [entriesList]; exact List.mem_append_right _ hx
    have hy' : y ∈ entriesList (node :: rest) := by rw [entriesList]; exact List.mem_append_right _ hy
    constructor
    · intro hpair
      refine (h.ancestry x hx' y hy').mp ?_
      rw [ancestryList]
      exact List.mem_append_right _ hpair
    · intro hxy
      have hpair := (h.ancestry x hx' y hy').mpr hxy
      rw [ancestryList, List.mem_append] at hpair
      rcases hpair with hpair | hpair
      · have hxnode := (mem_entries_of_mem_ancestry node hpair).1
        exact absurd rfl (fst_ne_of_nodup_append h.nodup_cons hxnode hx)
      · exact hpair

theorem children (h : Exact B (node :: rest)) : Exact B node.children where
  nodup := by
    have hnodup := h.nodup
    rw [entriesList, List.map_append, entries_eq, List.map_cons] at hnodup
    exact (List.nodup_cons.mp (List.nodup_append.mp hnodup).1).2
  heights e he := h.heights e (by
    rw [entriesList, entries_eq]
    exact List.mem_append_left _ (List.mem_cons_of_mem _ he))
  ancestry x hx y hy := by
    have hsub : entriesList node.children ⊆ entriesList (node :: rest) := fun e he => by
      rw [entriesList, entries_eq]
      exact List.mem_append_left _ (List.mem_cons_of_mem _ he)
    constructor
    · intro hpair
      refine (h.ancestry x (hsub hx) y (hsub hy)).mp ?_
      rw [ancestryList]
      exact List.mem_append_left _ (ancestryList_subset_ancestry node hpair)
    · intro hxy
      -- the pair lies in the first tree, and below its root, which is none of its children's entries
      have hy' := h.mem_of_isDescendentOf_head (entries_eq node ▸ List.mem_cons_of_mem _ hx)
        (hsub hy) hxy
      have hpair := (h.ancestry x (hsub hx) y (hsub hy)).mpr hxy
      rw [ancestryList, List.mem_append] at hpair
      rcases hpair with hpair | hpair
      · rw [ancestry_eq, List.mem_append, List.mem_map] at hpair
        rcases hpair with ⟨e, -, heq⟩ | hpair
        · have hroot : node.header = x := (Prod.mk.inj heq).1
          have hnodup := h.nodup
          rw [entriesList, List.map_append, entries_eq, List.map_cons] at hnodup
          have hnot := (List.nodup_cons.mp (List.nodup_append.mp hnodup).1).1
          exact absurd (List.mem_map_of_mem (f := Prod.fst) hx) (hroot ▸ hnot)
        · exact hpair
      · have hx' := (mem_entriesList_of_mem_ancestryList rest hpair).1
        exact absurd rfl (fst_ne_of_nodup_append h.nodup_cons
          (entries_eq node ▸ List.mem_cons_of_mem _ hx) hx')

end Exact

/-! ## Exactness level by level -/

section Levels

variable (B : BlockTree H N)

def Apart (node other : Node H N V) : Prop :=
  ∀ e ∈ node.entries, ∀ e' ∈ other.entries, B.Apart e.1 e'.1

mutual
def Node.Separated : Node H N V → Prop
  | ⟨_, _, _, children⟩ => SeparatedList children

def SeparatedList : List (Node H N V) → Prop
  | [] => True
  | node :: rest => node.Separated ∧ (∀ other ∈ rest, Apart B node other) ∧ SeparatedList rest
end

variable {B}

theorem separated_iff {node : Node H N V} : node.Separated B ↔ SeparatedList B node.children := by
  obtain ⟨hash, number, data, children⟩ := node
  rw [Node.Separated]

/-- Once one tree of a separated list holds an ancestor of a block, no other tree does. -/
theorem SeparatedList.not_isDescendentOf {node : Node H N V} {rest : List (Node H N V)}
    (h : SeparatedList B (node :: rest)) {e : H × N × V} (he : e ∈ node.entries) {target : H}
    (htarget : B.isDescendentOf e.1 target = true) :
    ∀ e' ∈ entriesList rest, B.isDescendentOf e'.1 target = false := by
  intro e' he'
  rw [SeparatedList] at h
  obtain ⟨other, hother, he'⟩ := mem_entriesList.mp he'
  rw [← Bool.not_eq_true]
  exact (h.2.1 other hother e he e' he').not_both_ancestors htarget

mutual
theorem Exact.separated : ∀ node : Node H N V, Exact B node.children → node.Separated B
  | ⟨_, _, _, children⟩, h => by
    rw [Node.Separated]
    exact Exact.separatedList children h

/-- An exact forest is separated at every level. -/
theorem Exact.separatedList : ∀ l : List (Node H N V), Exact B l → SeparatedList B l
  | [], _ => by rw [SeparatedList]; trivial
  | node :: rest, h => by
    rw [SeparatedList]
    refine ⟨Exact.separated node h.children, fun other hother e he e' he' => ?_,
      Exact.separatedList rest h.tail⟩
    have he'rest : e' ∈ entriesList rest := mem_entriesList.mpr ⟨other, hother, he'⟩
    have hnodup := h.nodup_cons
    -- a descendant in either direction would be an entry of both trees
    refine ⟨fst_ne_of_nodup_append hnodup he he'rest, ?_, ?_⟩
    · rw [← Bool.not_eq_true]
      intro hdesc
      have hmem := h.mem_of_isDescendentOf_head he
        (by rw [entriesList]; exact List.mem_append_right _ he'rest) hdesc
      exact fst_ne_of_nodup_append hnodup hmem he'rest rfl
    · rw [← Bool.not_eq_true]
      intro hdesc
      have hmem := h.mem_of_isDescendentOf_tail he'rest
        (by rw [entriesList]; exact List.mem_append_left _ he) hdesc
      exact fst_ne_of_nodup_append hnodup he hmem rfl
end

mutual
theorem Exact.edges : ∀ node : Node H N V, ∀ rest, Exact B (node :: rest) →
    node.Edges fun parent child => B.isDescendentOf parent.1 child.1 = true
  | ⟨blockHash, number, data, children⟩, rest, h => by
    rw [Edges]
    refine ⟨fun child hchild => ?_, Exact.edgesList children h.children⟩
    -- the pair of the node and its child is one of the forest's
    have hentry : child.header ∈ entriesList children :=
      entries_subset_entriesList hchild (header_mem_entries child)
    have hsub : ∀ e ∈ (Node.mk blockHash number data children).entries,
        e ∈ entriesList (Node.mk blockHash number data children :: rest) := fun e he => by
      rw [entriesList]
      exact List.mem_append_left _ he
    refine (h.ancestry _ (hsub _ (by rw [entries_mk]; exact List.mem_cons_self)) _
      (hsub _ (by rw [entries_mk]; exact List.mem_cons_of_mem _ hentry))).mp ?_
    refine List.mem_append_left _ ?_
    rw [Node.ancestry]
    exact List.mem_append_left _ (List.mem_map_of_mem hentry)

/-- In an exact forest each child's block descends from its parent's. -/
theorem Exact.edgesList : ∀ l : List (Node H N V), Exact B l →
    EdgesList (fun parent child => B.isDescendentOf parent.1 child.1 = true) l
  | [], _ => by rw [EdgesList]; trivial
  | node :: rest, h => by
    rw [EdgesList]
    exact ⟨Exact.edges node rest h, Exact.edgesList rest h.tail⟩
end

/-- An exact fork tree is well-formed. -/
theorem Exact.wellFormed {t : ForkTree H N V} (h : Exact B t.roots) : t.WellFormed B :=
  ⟨h.heights, Exact.edgesList t.roots h⟩

end Levels

end Substrate.ForkTree
