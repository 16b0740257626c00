import Substrate.BagsList.List

/-! # Migrating the bags list to new thresholds

`migrate` puts every node in the bag of its score under the new thresholds and keeps the bags
consistent, except when the old thresholds name the top bag and the new ones do not: its ids go
back into it, and its storage is then removed under them.
-/

namespace Substrate.BagsList

open BinarySearch

variable {A S : Type}

/-! ## Where a score belongs -/

/-- `bag` is where `score` belongs: the least threshold not below it, or the top above them all. -/
def IsNotional [LinearOrder S] [OrderTop S] (thresholds : List S) (score bag : S) : Prop :=
  (bag ∈ thresholds ∧ score ≤ bag ∧ ∀ t ∈ thresholds, score ≤ t → bag ≤ t) ∨
    (bag = ⊤ ∧ ∀ t ∈ thresholds, t < score)

section Notional

variable [LinearOrder S] [OrderTop S] {thresholds : List S} {score bag : S}

theorem IsNotional.unique {bag' : S} (h : IsNotional thresholds score bag)
    (h' : IsNotional thresholds score bag') : bag = bag' := by
  rcases h with ⟨hmem, hle, hleast⟩ | ⟨rfl, hall⟩ <;>
    rcases h' with ⟨hmem', hle', hleast'⟩ | ⟨rfl, hall'⟩
  · exact le_antisymm (hleast bag' hmem' hle') (hleast' bag hmem hle)
  · exact absurd hle (not_le.mpr (hall' bag hmem))
  · exact absurd hle' (not_le.mpr (hall bag' hmem'))
  · rfl

/-- `notional_bag_for` over strictly increasing thresholds is where the score belongs. -/
theorem isNotional_notionalBagFor (hsorted : StrictlySorted thresholds id) (score : S) :
    IsNotional thresholds score (notionalBagFor thresholds score) := by
  have hpoint : partitionPoint thresholds (fun threshold => decide (threshold < score)) =
      lowerBound thresholds id score :=
    partitionPoint_lt_eq_lowerBound thresholds id score
  rw [notionalBagFor, hpoint]
  by_cases hbound : lowerBound thresholds id score < thresholds.length
  · -- the threshold at the lower bound is the first one the score is not above
    refine .inl ⟨?_, ?_, fun t ht hle => ?_⟩
    · rw [List.getElem?_eq_getElem hbound, Option.getD_some]
      exact List.getElem_mem hbound
    · rw [List.getElem?_eq_getElem hbound, Option.getD_some]
      exact le_key_of_lowerBound_le hsorted le_rfl hbound
    · rw [List.getElem?_eq_getElem hbound, Option.getD_some]
      obtain ⟨j, hj, rfl⟩ := List.getElem_of_mem ht
      have hge : lowerBound thresholds id score ≤ j := by
        by_contra hlt
        exact absurd hle (not_le.mpr (key_lt_of_lt_lowerBound (Nat.lt_of_not_le hlt) hj))
      rcases Nat.lt_or_eq_of_le hge with hlt | heq
      · exact (List.pairwise_iff_getElem.mp hsorted _ _ hbound hj hlt).le
      · simp only [heq, le_refl]
  · -- no threshold is at least the score
    have hlen : thresholds.length ≤ lowerBound thresholds id score := Nat.le_of_not_lt hbound
    refine .inr ⟨by rw [List.getElem?_eq_none hlen, Option.getD_none], fun t ht => ?_⟩
    obtain ⟨j, hj, rfl⟩ := List.getElem_of_mem ht
    exact key_lt_of_lt_lowerBound (Nat.lt_of_lt_of_le hj hlen) hj

theorem notionalBagFor_eq (hsorted : StrictlySorted thresholds id)
    (h : IsNotional thresholds score bag) : notionalBagFor thresholds score = bag :=
  (isNotional_notionalBagFor hsorted score).unique h

theorem notionalBagFor_mem_or_top (thresholds : List S) (score : S) :
    notionalBagFor thresholds score ∈ thresholds ∨ notionalBagFor thresholds score = ⊤ := by
  rw [notionalBagFor]
  cases hget : thresholds[partitionPoint thresholds fun threshold => decide (threshold < score)]?
    with
  | none => exact .inr rfl
  | some t => exact .inl (List.mem_of_getElem? hget)

/-- A score stays in its bag under new thresholds when the bag is still a threshold, or the top, and
no new threshold falls in it. -/
theorem IsNotional.of_unsplit {newThresholds : List S} (h : IsNotional thresholds score bag)
    (hkept : bag ∈ thresholds → bag ∈ newThresholds)
    (hunsplit : ∀ t ∈ newThresholds, t ∉ thresholds → ¬IsNotional thresholds t bag) :
    IsNotional newThresholds score bag := by
  rcases h with ⟨hmem, hle, hleast⟩ | ⟨rfl, hall⟩
  · refine .inl ⟨hkept hmem, hle, fun t ht hscore => ?_⟩
    by_cases hold : t ∈ thresholds
    · exact hleast t hold hscore
    · -- a new threshold below the bag would fall in it
      by_contra hlt
      refine hunsplit t ht hold (.inl ⟨hmem, (not_le.mp hlt).le, fun u hu htu => ?_⟩)
      exact hleast u hu (hscore.trans htu)
  · refine .inr ⟨rfl, fun t ht => ?_⟩
    -- a new threshold at least the score would fall in the top bag
    by_contra hle
    have hold : t ∉ thresholds := fun hold => hle (hall t hold)
    exact hunsplit t ht hold (.inr ⟨rfl, fun u hu => (hall u hu).trans_le (not_lt.mp hle)⟩)

end Notional

/-! ## Consistent bags -/

/-- The bags and the nodes agree: each stored bag is a nonempty list of distinct ids whose nodes
name it, and each node is in the bag it names. -/
structure Consistent (s : State A S) : Prop where
  nodup : ∀ bag, (s.bagIds bag).Nodup
  nonempty : ∀ bag, s.bags bag ≠ some []
  members : ∀ bag id, id ∈ s.bagIds bag → ∃ node, s.nodes id = some node ∧ node.bagUpper = bag
  stored : ∀ id node, s.nodes id = some node → id ∈ s.bagIds node.bagUpper

/-- The invariant of the list under thresholds: consistent bags, each node in the bag of its
score. -/
structure Inv [LinearOrder S] [OrderTop S] (thresholds : List S) (s : State A S) : Prop
    extends Consistent s where
  placed : ∀ id node, s.nodes id = some node →
    node.bagUpper = notionalBagFor thresholds node.score

section Consistent

variable {s : State A S}

variable {bag : S} {id : A}

theorem Consistent.mem_bagIds (h : Consistent s) :
    id ∈ s.bagIds bag ↔ ∃ node, s.nodes id = some node ∧ node.bagUpper = bag := by
  constructor
  · exact h.members bag id
  · rintro ⟨node, hnode, rfl⟩
    exact h.stored id node hnode

theorem State.mem_bagIds_of_bags {ids : List A} (hbag : s.bags bag = some ids)
    : id ∈ s.bagIds bag ↔ id ∈ ids := by
  rw [State.bagIds, hbag, Option.getD_some]

/-- A stored bag is a threshold or the top bag: it holds a node, which is in the bag of its
score. -/
theorem Inv.key_mem [LinearOrder S] [OrderTop S] {thresholds : List S} (h : Inv thresholds s) {ids : List A}
    (hbag : s.bags bag = some ids) : bag ∈ thresholds ∨ bag = ⊤ := by
  obtain ⟨id, hid⟩ := List.exists_mem_of_ne_nil ids fun hnil => h.nonempty bag (hnil ▸ hbag)
  obtain ⟨node, hnode, rfl⟩ := h.members _ id ((State.mem_bagIds_of_bags hbag).mpr hid)
  rw [h.placed id node hnode]
  exact notionalBagFor_mem_or_top thresholds node.score

theorem Consistent.not_mem_bagIds (h : Consistent s) (hid : s.nodes id = none) (bag : S) :
    id ∉ s.bagIds bag := fun hmem => by
  obtain ⟨node, hnode, -⟩ := h.members bag id hmem
  rw [hid] at hnode
  cases hnode

variable [LinearOrder A] [LinearOrder S]

/-- A stored node leaves its bag and storage, and the bags stay consistent. -/
theorem Consistent.removeStep {acc : State A S × Nat} (h : Consistent acc.1) (id : A) :
    Consistent (removeStep acc id).1 ∧
      (removeStep acc id).1.nodes = Function.update acc.1.nodes id none := by
  obtain ⟨s, count⟩ := acc
  unfold BagsList.removeStep
  dsimp only at h ⊢
  cases hid : s.nodes id with
  | none => exact ⟨h, by rw [Function.update_eq_self_iff.mpr hid.symm]⟩
  | some node =>
    refine ⟨⟨fun bag => ?_, fun bag => ?_, fun bag id' hmem => ?_, fun id' node' hnode' => ?_⟩,
      rfl⟩
    · simp only [State.bagIds_removeNode, State.bagIds_putBag]
      split
      · exact (h.nodup _).erase id
      · exact h.nodup bag
    · simp only [State.removeNode_bags, State.putBag, Function.update_apply]
      split
      · split
        · exact (Option.some_ne_none _).symm
        · next hempty => exact fun heq => hempty (by simp [Option.some.inj heq])
      · exact h.nonempty bag
    · simp only [State.bagIds_removeNode, State.bagIds_putBag] at hmem
      simp only [State.removeNode_nodes, State.putBag_nodes]
      split at hmem
      · next hbag =>
        -- the ids left in the bag are the others
        obtain ⟨hne, hmem⟩ := ((h.nodup _).mem_erase_iff).mp hmem
        rw [Function.update_of_ne hne, hbag]
        exact h.members _ id' hmem
      · next hbag =>
        obtain ⟨node', hnode', hupper⟩ := h.members bag id' hmem
        have hne : id' ≠ id := by
          rintro rfl
          rw [hid] at hnode'
          cases hnode'
          exact hbag hupper.symm
        rw [Function.update_of_ne hne]
        exact ⟨node', hnode', hupper⟩
    · simp only [State.removeNode_nodes, State.putBag_nodes] at hnode'
      have hne : id' ≠ id := by
        rintro rfl
        simp at hnode'
      rw [Function.update_of_ne hne] at hnode'
      simp only [State.bagIds_removeNode, State.bagIds_putBag]
      split
      · exact ((h.nodup _).mem_erase_iff).mpr ⟨hne, ‹node'.bagUpper = node.bagUpper› ▸
          h.stored id' node' hnode'⟩
      · exact h.stored id' node' hnode'

/-- A node with no storage, put at the tail of the bag it names, keeps the bags consistent. -/
theorem Consistent.putNew (h : Consistent s) (hid : s.nodes id = none) (node : Node S) :
    Consistent ((s.putNode id node).putBag node.bagUpper (s.bagIds node.bagUpper ++ [id])) := by
  refine ⟨fun bag => ?_, fun bag => ?_, fun bag id' hmem => ?_, fun id' node' hnode' => ?_⟩
  · simp only [State.bagIds_putBag, State.bagIds_putNode]
    split
    · exact (h.nodup _).append (List.nodup_singleton id)
        (List.disjoint_singleton.mpr (h.not_mem_bagIds hid _))
    · exact h.nodup bag
  · simp only [State.putBag, State.putNode_bags, Function.update_apply]
    split
    · simp
    · exact h.nonempty bag
  · simp only [State.bagIds_putBag, State.bagIds_putNode] at hmem
    simp only [State.putBag_nodes, State.putNode_nodes]
    split at hmem
    · next hbag =>
      rcases List.mem_append.mp hmem with hmem | hmem
      · -- an old member of the bag, which is not the new node
        have hne : id' ≠ id := fun heq => h.not_mem_bagIds hid _ (heq ▸ hmem)
        rw [Function.update_of_ne hne, hbag]
        exact h.members _ id' hmem
      · rw [List.mem_singleton.mp hmem, Function.update_self]
        exact ⟨node, rfl, hbag.symm⟩
    · have hne : id' ≠ id := fun heq => h.not_mem_bagIds hid _ (heq ▸ hmem)
      rw [Function.update_of_ne hne]
      exact h.members bag id' hmem
  · simp only [State.putBag_nodes, State.putNode_nodes] at hnode'
    simp only [State.bagIds_putBag, State.bagIds_putNode]
    by_cases hne : id' = id
    · subst hne
      rw [Function.update_self, Option.some.injEq] at hnode'
      subst hnode'
      rw [if_pos rfl]
      exact List.mem_append_right _ (List.mem_singleton_self _)
    · rw [Function.update_of_ne hne] at hnode'
      split
      · next hbag => exact List.mem_append_left _ (hbag ▸ h.stored id' node' hnode')
      · exact h.stored id' node' hnode'

variable [OrderTop S]

/-- `insert` of an id with no storage puts the node at the tail of its score's bag: the tail check
never fires, as a bag's tail has storage. -/
theorem Consistent.insert_eq (h : Consistent s) (thresholds : List S)
    (hid : s.nodes id = none) (score : S) :
    insert thresholds s id score =
      .ok ((s.putNode id ⟨notionalBagFor thresholds score, score⟩).putBag
        (notionalBagFor thresholds score) (s.bagIds (notionalBagFor thresholds score) ++ [id])) := by
  have hcontains : s.contains id = false := by rw [State.contains, hid, Option.isSome_none]
  have htail : (s.bagIds (notionalBagFor thresholds score)).getLast? ≠ some id := fun hlast =>
    h.not_mem_bagIds hid _ (List.mem_of_getLast? hlast)
  unfold insert
  rw [if_neg (ne_true_of_eq_false hcontains), if_neg htail]

theorem Consistent.insertStep {acc : State A S × Nat} (h : Consistent acc.1) (thresholds : List S)
    (scoreOf : A → S) (hid : acc.1.nodes id = none) :
    Consistent (insertStep thresholds scoreOf acc id).1 ∧
      (insertStep thresholds scoreOf acc id).1.nodes =
        Function.update acc.1.nodes id (some ⟨notionalBagFor thresholds (scoreOf id), scoreOf id⟩) := by
  rw [BagsList.insertStep, h.insert_eq thresholds hid]
  exact ⟨h.putNew hid _, rfl⟩

/-! ## The loops of `migrate` -/

omit [OrderTop S] in
/-- `remove_many` takes the ids out of storage and keeps the bags consistent. -/
theorem Consistent.foldl_removeStep (ids : List A) : ∀ {acc : State A S × Nat}, Consistent acc.1 →
    Consistent (ids.foldl BagsList.removeStep acc).1 ∧
      (ids.foldl BagsList.removeStep acc).1.nodes = fun id =>
        if id ∈ ids then none else acc.1.nodes id := by
  induction ids with
  | nil =>
    intro acc h
    exact ⟨h, by simp⟩
  | cons id rest ih =>
    intro acc h
    obtain ⟨hstep, hnodes⟩ := h.removeStep id
    obtain ⟨hrun, hrunNodes⟩ := ih hstep
    refine ⟨hrun, ?_⟩
    rw [List.foldl_cons, hrunNodes, hnodes]
    funext id'
    by_cases hrest : id' ∈ rest
    · simp [hrest]
    · by_cases hid : id' = id
      · simp [hid]
      · simp [hrest, hid]

/-- `insert_many` of distinct ids with no storage puts each in the bag of its score and keeps the
bags consistent. -/
theorem Consistent.foldl_insertStep (thresholds : List S) (scoreOf : A → S) (ids : List A) :
    ∀ {acc : State A S × Nat}, Consistent acc.1 → ids.Nodup → (∀ id ∈ ids, acc.1.nodes id = none) →
    Consistent (ids.foldl (BagsList.insertStep thresholds scoreOf) acc).1 ∧
      (ids.foldl (BagsList.insertStep thresholds scoreOf) acc).1.nodes = fun id =>
        if id ∈ ids then some ⟨notionalBagFor thresholds (scoreOf id), scoreOf id⟩
        else acc.1.nodes id := by
  induction ids with
  | nil =>
    intro acc h _ _
    exact ⟨h, by simp⟩
  | cons id rest ih =>
    intro acc h hnodup habsent
    rw [List.nodup_cons] at hnodup
    obtain ⟨hstep, hnodes⟩ := h.insertStep thresholds scoreOf (habsent id List.mem_cons_self)
    -- the later ids are not the one just inserted, so they still have no storage
    have hrest : ∀ id' ∈ rest, (BagsList.insertStep thresholds scoreOf acc id).1.nodes id' = none :=
      fun id' hmem => by
        rw [hnodes, Function.update_of_ne (fun heq : id' = id => hnodup.1 (heq ▸ hmem))]
        exact habsent id' (List.mem_cons_of_mem _ hmem)
    obtain ⟨hrun, hrunNodes⟩ := ih hstep hnodup.2 hrest
    refine ⟨hrun, ?_⟩
    rw [List.foldl_cons, hrunNodes, hnodes]
    funext id'
    by_cases hmem : id' ∈ rest
    · simp [hmem]
    · by_cases hid : id' = id
      · simp [hid]
      · simp [hmem, hid]

omit [LinearOrder A] [OrderTop S] in
theorem foldl_removeBag_nodes (bags : List S) (s : State A S) :
    (bags.foldl State.removeBag s).nodes = s.nodes := by
  induction bags generalizing s with
  | nil => rfl
  | cons bag rest ih => rw [List.foldl_cons, ih, State.removeBag_nodes]

omit [LinearOrder A] [OrderTop S] in
theorem foldl_removeBag_bags (bags : List S) (s : State A S) :
    (bags.foldl State.removeBag s).bags = fun bag => if bag ∈ bags then none else s.bags bag := by
  induction bags generalizing s with
  | nil =>
    funext bag
    simp
  | cons bag rest ih =>
    rw [List.foldl_cons, ih, State.removeBag_bags]
    funext bag'
    by_cases hrest : bag' ∈ rest
    · simp [hrest]
    · by_cases hbag : bag' = bag
      · simp [hbag]
      · simp [hrest, hbag]

omit [LinearOrder A] [OrderTop S] in
/-- Removing bags that no node names keeps the bags consistent. -/
theorem Consistent.foldl_removeBag (h : Consistent s) (bags : List S)
    (hout : ∀ id node, s.nodes id = some node → node.bagUpper ∉ bags) :
    Consistent (bags.foldl State.removeBag s) := by
  have hids : ∀ bag, (bags.foldl State.removeBag s).bagIds bag =
      if bag ∈ bags then [] else s.bagIds bag := fun bag => by
    rw [State.bagIds, foldl_removeBag_bags]
    by_cases hbag : bag ∈ bags <;> simp [hbag, State.bagIds]
  refine ⟨fun bag => ?_, fun bag => ?_, fun bag id hmem => ?_, fun id node hnode => ?_⟩
  · rw [hids]
    split
    · exact List.nodup_nil
    · exact h.nodup bag
  · simp only [foldl_removeBag_bags]
    split
    · exact (Option.some_ne_none _).symm
    · exact h.nonempty bag
  · rw [hids] at hmem
    rw [foldl_removeBag_nodes]
    split at hmem
    · cases hmem
    · exact h.members bag id hmem
  · rw [foldl_removeBag_nodes] at hnode
    rw [hids, if_neg (hout id node hnode)]
    exact h.stored id node hnode

end Consistent

/-! ## The affected accounts -/

section Affected

variable [LinearOrder A] [LinearOrder S] (s : State A S)

/-- Over a set of bags already met, the affected accounts are the ids of those bags. -/
theorem affectBag_eq {acc : Finset A × Finset S}
    (hacc : acc.1 = acc.2.biUnion fun bag => (s.bagIds bag).toFinset) (bag : S) :
    affectBag s acc bag = ((Insert.insert bag acc.2).biUnion fun bag => (s.bagIds bag).toFinset,
      Insert.insert bag acc.2) := by
  unfold affectBag
  split
  · next hmem => rw [Finset.insert_eq_of_mem hmem, ← hacc]
  · rw [Finset.biUnion_insert, hacc, Finset.union_comm]

theorem foldl_affectBag (bags : List S) : ∀ {acc : Finset A × Finset S},
    acc.1 = acc.2.biUnion (fun bag => (s.bagIds bag).toFinset) →
    bags.foldl (affectBag s) acc = ((acc.2 ∪ bags.toFinset).biUnion fun bag =>
      (s.bagIds bag).toFinset, acc.2 ∪ bags.toFinset) := by
  induction bags with
  | nil =>
    intro acc hacc
    rw [List.foldl_nil, List.toFinset_nil, Finset.union_empty, ← hacc]
  | cons bag rest ih =>
    intro acc hacc
    rw [List.foldl_cons, affectBag_eq s hacc, ih rfl, List.toFinset_cons, Finset.union_insert,
      Finset.insert_union]

variable [OrderTop S]

def IsAffected (thresholds oldThresholds : List S) (bag : S) : Prop :=
  (bag ∈ oldThresholds ∧ bag ∉ thresholds) ∨
    ∃ t ∈ thresholds, t ∉ oldThresholds ∧ notionalBagFor oldThresholds t = bag

/-- The affected accounts are the ids of the affected bags; each bag is met once, whichever loop
meets it first. -/
theorem mem_affectedAccounts (thresholds oldThresholds : List S) (id : A) :
    id ∈ affectedAccounts thresholds oldThresholds s ↔
      ∃ bag, IsAffected thresholds oldThresholds bag ∧ id ∈ s.bagIds bag := by
  unfold affectedAccounts
  dsimp only
  rw [← List.foldl_map (f := notionalBagFor oldThresholds),
    foldl_affectBag s (List.map _ _) Finset.biUnion_empty.symm, foldl_affectBag s _ rfl]
  simp only [Finset.mem_biUnion, Finset.empty_union, Finset.mem_union, List.mem_toFinset,
    List.mem_map, Finset.mem_sort, Finset.mem_sdiff, IsAffected]
  -- the loops meet the split bags first, then the removed ones
  refine exists_congr fun bag => and_congr_left fun _ => ?_
  rw [Or.comm]
  simp only [and_assoc]

end Affected


/-! ## Migration -/

section Migrate

variable [LinearOrder A] [LinearOrder S] [OrderTop S] {s : State A S}
  {thresholds oldThresholds : List S}

theorem affectedAccounts_self (thresholds : List S) (s : State A S) :
    affectedAccounts thresholds thresholds s = ∅ := by
  refine Finset.eq_empty_of_forall_notMem fun id hid => ?_
  obtain ⟨bag, hbag, -⟩ := (mem_affectedAccounts s thresholds thresholds id).mp hid
  rcases hbag with ⟨hmem, hgone⟩ | ⟨t, ht, hnew, -⟩
  · exact hgone hmem
  · exact hnew ht

theorem migrate_count (thresholds oldThresholds : List S) (scoreOf : A → S) (s : State A S) :
    (migrate thresholds oldThresholds scoreOf s).2 =
      (affectedAccounts thresholds oldThresholds s).card % 2 ^ 32 := by
  unfold migrate
  split
  · next heq => rw [heq, affectedAccounts_self, Finset.card_empty, Nat.zero_mod]
  · rfl

theorem migrate_of_ne (hne : thresholds ≠ oldThresholds) (scoreOf : A → S) (s : State A S) :
    (migrate thresholds oldThresholds scoreOf s).1 =
      ((oldThresholds.toFinset \ thresholds.toFinset).sort (· ≤ ·)).foldl State.removeBag
        (insertMany thresholds ((affectedAccounts thresholds oldThresholds s).sort (· ≤ ·)) scoreOf
          (removeMany s ((affectedAccounts thresholds oldThresholds s).sort (· ≤ ·))).1).1 := by
  rw [migrate, if_neg hne]

/-- Taking distinct ids out and inserting them again puts each in the bag of its score. -/
theorem Consistent.reinsert (h : Consistent s) (thresholds : List S) (scoreOf : A → S)
    {ids : List A} (hnodup : ids.Nodup) :
    Consistent (insertMany thresholds ids scoreOf (removeMany s ids).1).1 ∧
      (insertMany thresholds ids scoreOf (removeMany s ids).1).1.nodes = fun id =>
        if id ∈ ids then some ⟨notionalBagFor thresholds (scoreOf id), scoreOf id⟩
        else s.nodes id := by
  have hstart : Consistent (s, 0).1 := h
  obtain ⟨hremoved, hremovedNodes⟩ := Consistent.foldl_removeStep ids hstart
  have habsent : ∀ id ∈ ids, (ids.foldl BagsList.removeStep (s, 0)).1.nodes id = none :=
    fun id hid => by
      rw [hremovedNodes]
      exact if_pos hid
  have hrestart : Consistent ((ids.foldl BagsList.removeStep (s, 0)).1, 0).1 := hremoved
  obtain ⟨hinserted, hinsertedNodes⟩ :=
    Consistent.foldl_insertStep thresholds scoreOf ids hrestart hnodup habsent
  refine ⟨hinserted, ?_⟩
  rw [insertMany, removeMany, hinsertedNodes, hremovedNodes]
  funext id
  by_cases hid : id ∈ ids <;> simp [hid]

/-- After `migrate` the affected ids have the nodes of their scores under the new thresholds; every
other id keeps its node. -/
theorem Consistent.migrate_nodes (h : Consistent s) (thresholds oldThresholds : List S)
    (scoreOf : A → S) :
    (migrate thresholds oldThresholds scoreOf s).1.nodes = fun id =>
      if id ∈ affectedAccounts thresholds oldThresholds s then
        some ⟨notionalBagFor thresholds (scoreOf id), scoreOf id⟩
      else s.nodes id := by
  by_cases heq : thresholds = oldThresholds
  · subst heq
    rw [migrate, if_pos rfl, affectedAccounts_self]
    funext id
    rw [if_neg (Finset.notMem_empty id)]
  · rw [migrate_of_ne heq, foldl_removeBag_nodes,
      (h.reinsert thresholds scoreOf (Finset.sort_nodup _ _)).2]
    simp only [Finset.mem_sort]

theorem Consistent.migrate_isSome (h : Consistent s) (thresholds oldThresholds : List S)
    (scoreOf : A → S) (id : A) :
    ((migrate thresholds oldThresholds scoreOf s).1.nodes id).isSome = (s.nodes id).isSome := by
  rw [h.migrate_nodes]
  dsimp only
  split
  · next haffected =>
    obtain ⟨bag, -, hmem⟩ := (mem_affectedAccounts s _ _ id).mp haffected
    obtain ⟨node, hnode, -⟩ := h.members bag id hmem
    rw [hnode, Option.isSome_some, Option.isSome_some]
  · rfl

omit [LinearOrder A] in
/-- A node of a bag that new thresholds neither split nor remove is in the bag of its score under
them too. -/
theorem Inv.placed_of_not_isAffected (hinv : Inv oldThresholds s)
    (hold : StrictlySorted oldThresholds id) (hnew : StrictlySorted thresholds id) {a : A}
    {node : Node S} (hnode : s.nodes a = some node)
    (hunaffected : ¬IsAffected thresholds oldThresholds node.bagUpper) :
    node.bagUpper = notionalBagFor thresholds node.score := by
  have hplaced : IsNotional oldThresholds node.score node.bagUpper := by
    rw [hinv.placed a node hnode]
    exact isNotional_notionalBagFor hold node.score
  refine (notionalBagFor_eq hnew (hplaced.of_unsplit (fun hmem => ?_) fun t ht hnotOld hsplit => ?_)).symm
  · by_contra hgone
    exact hunaffected (.inl ⟨hmem, hgone⟩)
  · exact hunaffected (.inr ⟨t, ht, hnotOld, notionalBagFor_eq hold hsplit⟩)

/-- With strictly increasing thresholds, and the top bag kept whenever the old thresholds name it,
`migrate` establishes the invariant. -/
theorem migrate_inv (hinv : Inv oldThresholds s) (hold : StrictlySorted oldThresholds id)
    (hnew : StrictlySorted thresholds id) (htop : ⊤ ∈ oldThresholds → ⊤ ∈ thresholds)
    (scoreOf : A → S) : Inv thresholds (migrate thresholds oldThresholds scoreOf s).1 := by
  have hunaffected : ∀ a node, s.nodes a = some node →
      a ∉ affectedAccounts thresholds oldThresholds s →
      ¬IsAffected thresholds oldThresholds node.bagUpper := fun a node hnode ha haffected =>
    ha ((mem_affectedAccounts s _ _ a).mpr ⟨_, haffected, hinv.stored a node hnode⟩)
  -- a rebagged node is in a new threshold or the top bag, so in no removed bag
  have hout : ∀ a node, (migrate thresholds oldThresholds scoreOf s).1.nodes a = some node →
      ¬(node.bagUpper ∈ oldThresholds ∧ node.bagUpper ∉ thresholds) := by
    intro a node hnode
    rw [hinv.migrate_nodes] at hnode
    dsimp only at hnode
    split at hnode
    · rw [← Option.some.inj hnode]
      rintro ⟨hmem, hgone⟩
      rcases notionalBagFor_mem_or_top thresholds (scoreOf a) with hin | htopBag
      · exact hgone hin
      · exact hgone (htopBag ▸ htop (htopBag ▸ hmem))
    · next ha => exact fun hgone => hunaffected a node hnode ha (.inl hgone)
  refine ⟨?_, fun a node hnode => ?_⟩
  · by_cases heq : thresholds = oldThresholds
    · subst heq
      rw [migrate, if_pos rfl]
      exact hinv.toConsistent
    · have hrebagged := hinv.reinsert thresholds scoreOf
        (Finset.sort_nodup (affectedAccounts thresholds oldThresholds s) (· ≤ ·))
      rw [migrate_of_ne heq]
      refine hrebagged.1.foldl_removeBag _ fun a node hnode hremoved => ?_
      rw [Finset.mem_sort, Finset.mem_sdiff, List.mem_toFinset, List.mem_toFinset] at hremoved
      refine hout a node ?_ hremoved
      rw [migrate_of_ne heq, foldl_removeBag_nodes]
      exact hnode
  · rw [hinv.migrate_nodes] at hnode
    dsimp only at hnode
    split at hnode
    · rw [← Option.some.inj hnode]
    · next ha => exact hinv.placed_of_not_isAffected hold hnew hnode (hunaffected a node hnode ha)

/-- Where the scores are the stored ones and each node is in its bag under the new thresholds,
`migrate` moves no node, whatever it counts. -/
theorem Consistent.migrate_nodes_of_placed (h : Consistent s) (scoreOf : A → S)
    (hscore : ∀ a node, s.nodes a = some node → scoreOf a = node.score)
    (hplaced : ∀ a node, s.nodes a = some node →
      node.bagUpper = notionalBagFor thresholds node.score) :
    (migrate thresholds oldThresholds scoreOf s).1.nodes = s.nodes := by
  rw [h.migrate_nodes]
  funext a
  split
  · next haffected =>
    obtain ⟨bag, -, hmem⟩ := (mem_affectedAccounts s _ _ a).mp haffected
    obtain ⟨node, hnode, -⟩ := h.members bag a hmem
    rw [hnode, hscore a node hnode, ← hplaced a node hnode]
  · rfl

/-- When the old thresholds name the top bag and the new ones do not, a top-bag node whose score
belongs there goes back into it, and the bag leaves storage. -/
theorem Consistent.migrate_orphans_top (h : Consistent s) (htopOld : ⊤ ∈ oldThresholds)
    (htopNew : ⊤ ∉ thresholds) (scoreOf : A → S) {a : A} {node : Node S}
    (hnode : s.nodes a = some node) (hbag : node.bagUpper = ⊤)
    (hscore : notionalBagFor thresholds (scoreOf a) = ⊤) :
    (migrate thresholds oldThresholds scoreOf s).1.nodes a = some ⟨⊤, scoreOf a⟩ ∧
      (migrate thresholds oldThresholds scoreOf s).1.bags ⊤ = none ∧
      ¬Consistent (migrate thresholds oldThresholds scoreOf s).1 := by
  have haffected : a ∈ affectedAccounts thresholds oldThresholds s :=
    (mem_affectedAccounts s _ _ a).mpr ⟨⊤, .inl ⟨htopOld, htopNew⟩, hbag ▸ h.stored a node hnode⟩
  have hnodes : (migrate thresholds oldThresholds scoreOf s).1.nodes a = some ⟨⊤, scoreOf a⟩ := by
    rw [h.migrate_nodes]
    dsimp only
    rw [if_pos haffected, hscore]
  have hne : thresholds ≠ oldThresholds := fun heq => htopNew (heq ▸ htopOld)
  have hbags : (migrate thresholds oldThresholds scoreOf s).1.bags ⊤ = none := by
    rw [migrate_of_ne hne, foldl_removeBag_bags]
    dsimp only
    rw [if_pos (by simp [htopOld, htopNew])]
  refine ⟨hnodes, hbags, fun hcons => ?_⟩
  -- the node names the top bag, which is no longer stored
  have hmem := hcons.stored a _ hnodes
  rw [State.bagIds, hbags] at hmem
  cases hmem

end Migrate

/-! ## Lists of one node -/

section Single

variable [LinearOrder A] [LinearOrder S]

def State.single (a : A) (node : Node S) : State A S where
  bags bag := if bag = node.bagUpper then some [a] else none
  nodes a' := if a' = a then some node else none

theorem State.single_bags (a : A) (node : Node S) (bag : S) :
    (State.single a node).bags bag = if bag = node.bagUpper then some [a] else none := rfl

theorem State.single_nodes (a : A) (node : Node S) (a' : A) :
    (State.single a node).nodes a' = if a' = a then some node else none := rfl

/-- A list of one node is consistent, and keeps the invariant when the node is in the bag of its
score. -/
theorem Inv.single [OrderTop S] {thresholds : List S} (a : A) {node : Node S}
    (hplaced : node.bagUpper = notionalBagFor thresholds node.score) :
    Inv thresholds (State.single a node) := by
  have hids : ∀ bag, (State.single a node).bagIds bag =
      if bag = node.bagUpper then [a] else [] := fun bag => by
    rw [State.bagIds, State.single_bags]
    split <;> rfl
  have hnodes := State.single_nodes a node
  refine ⟨⟨fun bag => ?_, fun bag => ?_, fun bag a' hmem => ?_, fun a' node' hnode' => ?_⟩,
    fun a' node' hnode' => ?_⟩
  · rw [hids]
    split
    · exact List.nodup_singleton a
    · exact List.nodup_nil
  · rw [State.single_bags]
    split <;> simp
  · rw [hids] at hmem
    split at hmem
    · next hbag =>
      rw [List.mem_singleton.mp hmem]
      exact ⟨node, if_pos rfl, hbag.symm⟩
    · cases hmem
  · rw [hnodes] at hnode'
    split at hnode'
    · next ha =>
      rw [← Option.some.inj hnode', hids, if_pos rfl, ha]
      exact List.mem_singleton_self a
    · cases hnode'
  · rw [hnodes] at hnode'
    split at hnode'
    · rw [← Option.some.inj hnode']
      exact hplaced
    · cases hnode'

end Single

variable [LinearOrder A] [LinearOrder S] [OrderTop S]

/-- Over increasing thresholds `migrate` keeps the ids and puts each node in its score's bag, unless
the top bag is dropped (score `20`, `[10, ⊤]` to `[10]`). Its count is not of moved ids: score `8`
stays in bag `10` from `[10]` to `[5, 10]` yet counts. -/
theorem migrate_rebags_unless_the_top_bag_is_dropped :
    (∀ (thresholds oldThresholds : List S) (scoreOf : A → S) (s : State A S),
      Inv oldThresholds s → StrictlySorted oldThresholds id → StrictlySorted thresholds id →
      (⊤ ∈ oldThresholds → ⊤ ∈ thresholds) →
      (∀ a, ((migrate thresholds oldThresholds scoreOf s).1.nodes a).isSome = (s.nodes a).isSome) ∧
        Inv thresholds (migrate thresholds oldThresholds scoreOf s).1 ∧
        (∀ bag ids, (migrate thresholds oldThresholds scoreOf s).1.bags bag = some ids →
          bag ∈ thresholds ∨ bag = ⊤) ∧
        (migrate thresholds oldThresholds scoreOf s).2 =
          (affectedAccounts thresholds oldThresholds s).card % 2 ^ 32) ∧
    (∀ (thresholds oldThresholds : List S) (scoreOf : A → S) (s : State A S) (a : A)
      (node : Node S), Consistent s → ⊤ ∈ oldThresholds → ⊤ ∉ thresholds →
      s.nodes a = some node → node.bagUpper = ⊤ → notionalBagFor thresholds (scoreOf a) = ⊤ →
      (migrate thresholds oldThresholds scoreOf s).1.nodes a = some ⟨⊤, scoreOf a⟩ ∧
        (migrate thresholds oldThresholds scoreOf s).1.bags ⊤ = none ∧
        ¬Consistent (migrate thresholds oldThresholds scoreOf s).1) ∧
    (Inv [10, ⊤] (State.single 1 ⟨⊤, 20⟩ : State Nat (Fin 101)) ∧
      StrictlySorted [10, (⊤ : Fin 101)] id ∧ StrictlySorted [(10 : Fin 101)] id ∧
      ¬Inv [10] (migrate [10] [10, ⊤] (fun _ => 20)
        (State.single 1 ⟨⊤, 20⟩ : State Nat (Fin 101))).1) ∧
    (Inv [10] (State.single 1 ⟨10, 8⟩ : State Nat (Fin 101)) ∧
      StrictlySorted [(5 : Fin 101), 10] id ∧
      (migrate [5, 10] [10] (fun _ => 8) (State.single 1 ⟨10, 8⟩ : State Nat (Fin 101))).1.nodes =
        (State.single 1 ⟨10, 8⟩ : State Nat (Fin 101)).nodes ∧
      (migrate [5, 10] [10] (fun _ => 8) (State.single 1 ⟨10, 8⟩ : State Nat (Fin 101))).2 = 1) := by
  refine ⟨fun thresholds oldThresholds scoreOf s hinv hold hnew htop => ?_,
    fun thresholds oldThresholds scoreOf s a node h htopOld htopNew hnode hbag hscore =>
      h.migrate_orphans_top htopOld htopNew scoreOf hnode hbag hscore, ?_, ?_⟩
  · have hinv' := migrate_inv hinv hold hnew htop scoreOf
    exact ⟨hinv.migrate_isSome thresholds oldThresholds scoreOf, hinv',
      fun bag ids hbag => hinv'.key_mem hbag, migrate_count thresholds oldThresholds scoreOf s⟩
  · -- the top bag dropped
    have hinv : Inv [10, ⊤] (State.single 1 ⟨⊤, 20⟩ : State Nat (Fin 101)) :=
      Inv.single 1 (by decide)
    refine ⟨hinv, by decide, by decide, fun hinv' => ?_⟩
    have hnode : (State.single 1 ⟨⊤, 20⟩ : State Nat (Fin 101)).nodes 1 = some ⟨⊤, 20⟩ := rfl
    exact (hinv.migrate_orphans_top (by decide) (by decide) _ hnode rfl (by decide)).2.2
      hinv'.toConsistent
  · -- a split bag whose node stays
    have hinv : Inv [10] (State.single 1 ⟨10, 8⟩ : State Nat (Fin 101)) :=
      Inv.single 1 (by decide)
    have hscore : ∀ a node, (State.single 1 ⟨10, 8⟩ : State Nat (Fin 101)).nodes a = some node →
        (fun _ => (8 : Fin 101)) a = node.score := fun a node hnode => by
      rw [State.single_nodes] at hnode
      split at hnode
      · rw [← Option.some.inj hnode]
      · cases hnode
    have hplaced : ∀ a node, (State.single 1 ⟨10, 8⟩ : State Nat (Fin 101)).nodes a = some node →
        node.bagUpper = notionalBagFor [5, 10] node.score := fun a node hnode => by
      rw [State.single_nodes] at hnode
      split at hnode
      · rw [← Option.some.inj hnode]
        decide
      · cases hnode
    exact ⟨hinv, by decide, hinv.migrate_nodes_of_placed _ hscore hplaced, by decide +kernel⟩

end Substrate.BagsList
