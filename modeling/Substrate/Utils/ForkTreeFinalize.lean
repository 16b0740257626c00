import Substrate.Utils.ForkTree
import Mathlib

/-! # Finalizing the fork tree with an oracle that may fail

`finalize`, `finalize_with_ancestors` and `finalize_with_descendent_if` with the source's fallible
oracle: an error returns the tree with the roots put back so far. With an oracle that never fails,
`finalize_with_descendent_if` is the fork tree model's.
-/

namespace Substrate.ForkTree.Fallible

open Substrate.ForkTree

/-- `Error`, with the client error of the oracle. -/
inductive Error (E : Type) where
  | duplicate
  | unfinalizedAncestor
  | revert
  | client (error : E)
  deriving DecidableEq, Repr

def Error.ofError {E : Type} : ForkTree.Error → Error E
  | .duplicate => .duplicate
  | .unfinalizedAncestor => .unfinalizedAncestor
  | .revert => .revert

def Error.isClient {E : Type} : Error E → Bool
  | .client _ => true
  | _ => false

def swapRemove {α : Type} (l : List α) (i : Nat) : List α :=
  match l.getLast? with
  | some last => (l.set i last).dropLast
  | none => l

variable {H N V E : Type} [DecidableEq H] [LinearOrder N]

/-- The check every finalization starts with: a number no later than the best finalized one
reverts. -/
def reverts (t : ForkTree H N V) (number : N) : Bool :=
  (t.bestFinalizedNumber.map fun best => decide (number ≤ best)).getD false

/-- `finalize_root_at`: the root at the position is finalized, and its children become the
roots. -/
def finalizeRootAt (t : ForkTree H N V) (position : Nat) : Option (ForkTree H N V × V) :=
  t.roots[position]?.map fun node => (⟨node.children, some node.number⟩, node.data)

/-- `finalize_root`: the root with the hash, if there is one, is finalized. -/
def finalizeRoot (t : ForkTree H N V) (hash : H) : Option (ForkTree H N V × V) :=
  (t.roots.findIdx? fun node => decide (node.hash = hash)).bind (finalizeRootAt t)

/-- The loop of `finalize` that makes sure the block does not descend from a root before it. -/
def checkNotDescendent (hash : H) (number : N) (isDescendentOf : H → H → Except E Bool) :
    List (Node H N V) → Except (Error E) Unit
  | [] => .ok ()
  | root :: roots =>
      if root.number < number then
        match isDescendentOf root.hash hash with
        | .error e => .error (.client e)
        | .ok true => .error .unfinalizedAncestor
        | .ok false => checkNotDescendent hash number isDescendentOf roots
      else checkNotDescendent hash number isDescendentOf roots

/-- The loop of `finalize` over the roots: a later descendant of the block is pushed back, any other
dropped; a failing query returns those pushed so far. -/
def retainDescendents (hash : H) (number : N) (isDescendentOf : H → H → Except E Bool) :
    List (Node H N V) → List (Node H N V) → Bool → List (Node H N V) × Except (Error E) Bool
  | kept, [], changed => (kept, .ok changed)
  | kept, root :: roots, changed =>
      if number < root.number then
        match isDescendentOf hash root.hash with
        | .error e => (kept, .error (.client e))
        | .ok true => retainDescendents hash number isDescendentOf (kept ++ [root]) roots changed
        | .ok false => retainDescendents hash number isDescendentOf kept roots true
      else retainDescendents hash number isDescendentOf kept roots true

/-- `finalize`: a root with the hash is finalized; otherwise, unless the block descends from a
root before it, only the roots that descend from the block stay. -/
def finalize (t : ForkTree H N V) (hash : H) (number : N)
    (isDescendentOf : H → H → Except E Bool) :
    ForkTree H N V × Except (Error E) (FinalizationResult V) :=
  if reverts t number then (t, .error .revert)
  else
    match finalizeRoot t hash with
    | some (t, data) => (t, .ok (.changed (some data)))
    | none =>
        match checkNotDescendent hash number isDescendentOf t.roots with
        | .error e => (t, .error e)
        | .ok () =>
            match retainDescendents hash number isDescendentOf [] t.roots false with
            | (kept, .error e) => ({ t with roots := kept }, .error e)
            | (kept, .ok changed) =>
                (⟨kept, some number⟩, .ok (if changed then .changed none else .unchanged))

/-- The loop of `finalize_with_ancestors`: the root with the hash stops it, a descendant of the
block stays, an ancestor gives way to its children, others go, by `swap_remove`. -/
def openAncestors (hash : H) (number : N) (isDescendentOf : H → H → Except E Bool) :
    Nat → Nat → List (Node H N V) → Bool →
      List (Node H N V) × Except (Error E) (Option (Node H N V) × Bool)
  | 0, _, roots, changed => (roots, .ok (none, changed))
  | fuel + 1, idx, roots, changed =>
      match roots[idx]? with
      | none => (roots, .ok (none, changed))
      | some root =>
          if root.hash = hash then (roots, .ok (some root, changed))
          else
            let isDescendant : Except E Bool :=
              if number < root.number then isDescendentOf hash root.hash else .ok false
            match isDescendant with
            | .error e => (roots, .error (.client e))
            | .ok true => openAncestors hash number isDescendentOf fuel (idx + 1) roots changed
            | .ok false =>
                let isAncestor : Except E Bool :=
                  if root.number < number then isDescendentOf root.hash hash else .ok false
                match isAncestor with
                | .error e => (roots, .error (.client e))
                | .ok true =>
                    openAncestors hash number isDescendentOf fuel idx
                      (swapRemove roots idx ++ root.children) true
                | .ok false =>
                    openAncestors hash number isDescendentOf fuel idx (swapRemove roots idx) true

/-- `finalize_with_ancestors`: a root with the hash is finalized; otherwise the roots are opened
until the finalized one, keeping the block's descendants. -/
def finalizeWithAncestors (t : ForkTree H N V) (hash : H) (number : N)
    (isDescendentOf : H → H → Except E Bool) :
    ForkTree H N V × Except (Error E) (FinalizationResult V) :=
  if reverts t number then (t, .error .revert)
  else
    match finalizeRoot t hash with
    | some (t, data) => (t, .ok (.changed (some data)))
    | none =>
        match openAncestors hash number isDescendentOf (Node.sizeList t.roots + 1) 0 t.roots false with
        | (roots, .error e) => ({ t with roots }, .error e)
        | (_, .ok (some node, _)) => (⟨node.children, some node.number⟩, .ok (.changed (some node.data)))
        | (roots, .ok (none, changed)) =>
            (⟨roots, some number⟩, .ok (if changed then .changed none else .unchanged))

def checkChildren (hash : H) (number : N) (isDescendentOf : H → H → Except E Bool) :
    List (Node H N V) → Except (Error E) Unit
  | [] => .ok ()
  | child :: children =>
      if child.number ≤ number then
        if child.hash = hash then .error .unfinalizedAncestor
        else
          match isDescendentOf child.hash hash with
          | .error e => .error (.client e)
          | .ok true => .error .unfinalizedAncestor
          | .ok false => checkChildren hash number isDescendentOf children
      else checkChildren hash number isDescendentOf children

/-- The search of `finalize_with_descendent_if`: the first root that passes `predicate` and that
the block is or descends from, once its children are checked. -/
def findFinalizedRoot (hash : H) (number : N) (isDescendentOf : H → H → Except E Bool)
    (predicate : V → Bool) : Nat → List (Node H N V) → Except (Error E) (Option Nat)
  | _, [] => .ok none
  | i, root :: roots =>
      let found : Except E Bool :=
        if predicate root.data then
          if root.hash = hash then .ok true else isDescendentOf root.hash hash
        else .ok false
      match found with
      | .error e => .error (.client e)
      | .ok true =>
          match checkChildren hash number isDescendentOf root.children with
          | .error e => .error e
          | .ok () => .ok (some i)
      | .ok false => findFinalizedRoot hash number isDescendentOf predicate (i + 1) roots

/-- The loop of `finalize_with_descendent_if` over the roots: the block, an ancestor or a later
descendant is pushed back. A failing query returns those pushed so far. -/
def retainRoots (hash : H) (number : N) (isDescendentOf : H → H → Except E Bool) :
    List (Node H N V) → List (Node H N V) → Bool → List (Node H N V) × Except (Error E) Bool
  | kept, [], changed => (kept, .ok changed)
  | kept, root :: roots, changed =>
      let descendant : Except E Bool :=
        if number < root.number then isDescendentOf hash root.hash else .ok false
      match descendant with
      | .error e => (kept, .error (.client e))
      | .ok true => retainRoots hash number isDescendentOf (kept ++ [root]) roots changed
      | .ok false =>
          if root.number = number ∧ root.hash = hash then
            retainRoots hash number isDescendentOf (kept ++ [root]) roots changed
          else
            match isDescendentOf root.hash hash with
            | .error e => (kept, .error (.client e))
            | .ok true => retainRoots hash number isDescendentOf (kept ++ [root]) roots changed
            | .ok false => retainRoots hash number isDescendentOf kept roots true

/-- `finalize_with_descendent_if`: the root found by the search is finalized and its children
become the roots; then only the roots related to the block stay. -/
def finalizeWithDescendentIf (t : ForkTree H N V) (hash : H) (number : N)
    (isDescendentOf : H → H → Except E Bool) (predicate : V → Bool) :
    ForkTree H N V × Except (Error E) (FinalizationResult V) :=
  if reverts t number then (t, .error .revert)
  else
    match findFinalizedRoot hash number isDescendentOf predicate 0 t.roots with
    | .error e => (t, .error e)
    | .ok position =>
        let (t, nodeData) : ForkTree H N V × Option V :=
          match position.bind fun i => t.roots[i]? with
          | some node => (⟨node.children, some node.number⟩, some node.data)
          | none => (t, none)
        match retainRoots hash number isDescendentOf [] t.roots false with
        | (kept, .error e) => ({ t with roots := kept }, .error e)
        | (kept, .ok changed) => (⟨kept, some number⟩, .ok (finalizationResult nodeData changed))

/-! ## What an error leaves behind

The checks that come first return before the tree changes; the loops that took the roots out fail
only with the oracle's error, which loses the roots not yet put back.
-/

section ErrorKeeps

variable {t t' : ForkTree H N V} {hash : H} {number : N} {isDescendentOf : H → H → Except E Bool}

omit [DecidableEq H] in
theorem retainDescendents_error :
    ∀ {kept roots : List (Node H N V)} {changed : Bool} {kept' : List (Node H N V)}
      {e : Error E}, retainDescendents hash number isDescendentOf kept roots changed =
        (kept', .error e) → e.isClient = true
  | _, [], _, _, _, h => by cases h
  | kept, root :: roots, changed, kept', e, h => by
    rw [retainDescendents] at h
    split at h
    · split at h
      · cases h
        rfl
      · exact retainDescendents_error h
      · exact retainDescendents_error h
    · exact retainDescendents_error h

/-- An error of `finalize` other than the oracle's leaves the tree as it was. -/
theorem finalize_error_keeps_tree {e : Error E}
    (h : finalize t hash number isDescendentOf = (t', .error e)) (hclient : e.isClient = false) :
    t' = t := by
  rw [finalize] at h
  split at h
  · cases h
    rfl
  · split at h
    · cases h
    · split at h
      · cases h
        rfl
      · split at h
        · rename_i hretain
          cases h
          rw [retainDescendents_error hretain] at hclient
          cases hclient
        · cases h

omit [DecidableEq H] in
theorem checkNotDescendent_of_after :
    ∀ {roots : List (Node H N V)}, (∀ root ∈ roots, number ≤ root.number) →
      checkNotDescendent hash number isDescendentOf roots = .ok ()
  | [], _ => rfl
  | root :: roots, hafter => by
    rw [checkNotDescendent, if_neg (not_lt.mpr (hafter root (List.mem_cons_self ..)))]
    exact checkNotDescendent_of_after fun r hr => hafter r (List.mem_cons_of_mem _ hr)

/-- Finalizing a block before every root, none of which is the block, when the oracle fails on
the first root: `finalize` returns the oracle's error with no root left. -/
theorem finalize_client_error_drops_roots {root : Node H N V} {rest : List (Node H N V)}
    {c : E} (hroots : t.roots = root :: rest) (hrevert : reverts t number = false)
    (hhash : ∀ r ∈ t.roots, r.hash ≠ hash) (hafter : ∀ r ∈ t.roots, number < r.number)
    (hfail : isDescendentOf hash root.hash = .error c) :
    finalize t hash number isDescendentOf = ({ t with roots := [] }, .error (.client c)) := by
  have hroot : finalizeRoot t hash = none := by
    rw [finalizeRoot, List.findIdx?_eq_none_iff.mpr (fun r hr => by simpa using hhash r hr)]
    rfl
  have hcheck : checkNotDescendent hash number isDescendentOf t.roots = .ok () :=
    checkNotDescendent_of_after fun r hr => (hafter r hr).le
  have hretain : retainDescendents hash number isDescendentOf [] t.roots false =
      ([], .error (.client c)) := by
    rw [hroots, retainDescendents, if_pos (hafter root (hroots ▸ List.mem_cons_self ..)), hfail]
  rw [finalize, if_neg (by simp [hrevert]), hroot]
  simp only [hcheck, hretain]

theorem openAncestors_error :
    ∀ {fuel idx : Nat} {roots : List (Node H N V)} {changed : Bool} {roots' : List (Node H N V)}
      {e : Error E}, openAncestors hash number isDescendentOf fuel idx roots changed =
        (roots', .error e) → e.isClient = true
  | 0, _, _, _, _, _, h => by cases h
  | fuel + 1, idx, roots, changed, roots', e, h => by
    rw [openAncestors] at h
    split at h
    · cases h
    · rename_i root _
      split at h
      · cases h
      · -- the two queries: an error returns it, an answer goes on
        dsimp only at h
        generalize (if number < root.number then isDescendentOf hash root.hash
          else Except.ok false) = isDescendant at h
        cases isDescendant with
        | error c =>
          cases h
          rfl
        | ok descendant =>
          cases descendant
          · dsimp only at h
            generalize (if root.number < number then isDescendentOf root.hash hash
              else Except.ok false) = isAncestor at h
            cases isAncestor with
            | error c =>
              cases h
              rfl
            | ok ancestor =>
              cases ancestor
              · exact openAncestors_error h
              · exact openAncestors_error h
          · exact openAncestors_error h

/-- An error of `finalize_with_ancestors` other than the oracle's, which is only the revert,
leaves the tree as it was. -/
theorem finalizeWithAncestors_error_keeps_tree {e : Error E}
    (h : finalizeWithAncestors t hash number isDescendentOf = (t', .error e))
    (hclient : e.isClient = false) : t' = t := by
  rw [finalizeWithAncestors] at h
  split at h
  · cases h
    rfl
  · split at h
    · cases h
    · split at h
      · rename_i hopen
        cases h
        rw [openAncestors_error hopen] at hclient
        cases hclient
      · cases h
      · cases h

theorem retainRoots_error :
    ∀ {kept roots : List (Node H N V)} {changed : Bool} {kept' : List (Node H N V)}
      {e : Error E}, retainRoots hash number isDescendentOf kept roots changed =
        (kept', .error e) → e.isClient = true
  | _, [], _, _, _, h => by cases h
  | kept, root :: roots, changed, kept', e, h => by
    rw [retainRoots] at h
    split at h
    · cases h
      rfl
    · exact retainRoots_error h
    · split at h
      · exact retainRoots_error h
      · split at h
        · cases h
          rfl
        · exact retainRoots_error h
        · exact retainRoots_error h

/-- An error of `finalize_with_descendent_if` other than the oracle's leaves the tree as it was:
the search fails before the root is finalized. -/
theorem finalizeWithDescendentIf_error_keeps_tree {predicate : V → Bool} {e : Error E}
    (h : finalizeWithDescendentIf t hash number isDescendentOf predicate = (t', .error e))
    (hclient : e.isClient = false) : t' = t := by
  rw [finalizeWithDescendentIf] at h
  split at h
  · cases h
    rfl
  · split at h
    · cases h
      rfl
    · -- past the search only the loop over the roots fails, with the oracle's error
      rename_i position _
      generalize (match position.bind fun i => t.roots[i]? with
        | some node => ((⟨node.children, some node.number⟩ : ForkTree H N V), some node.data)
        | none => (t, none)) = finalized at h
      obtain ⟨t₁, nodeData⟩ := finalized
      dsimp only at h
      cases hretain : retainRoots hash number isDescendentOf [] t₁.roots false with
      | mk kept result =>
        rw [hretain] at h
        cases result with
        | error e' =>
          cases h
          rw [retainRoots_error hretain] at hclient
          cases hclient
        | ok changed => cases h


end ErrorKeeps
/-- Block 0 is unrelated to block 3 and dropped by `swap_remove`; the oracle then fails on
block 2, which is after block 3, and the tree keeps only block 2. -/
theorem finalizeWithAncestors_drops_unrelated_root :
    finalizeWithAncestors (⟨[⟨0, 1, 10, []⟩, ⟨2, 5, 20, []⟩], none⟩ : ForkTree Nat Nat Nat) 3 3
      (fun base target => if base = 3 ∧ target = 2 then .error () else .ok false) =
      (⟨[⟨2, 5, 20, []⟩], none⟩, .error (.client ())) :=
  rfl

/-- The root 1 is finalized, its child 2 becomes the root and the oracle fails on it: the tree is
left with no root, and with the best finalized number of the root. -/
theorem finalizeWithDescendentIf_keeps_finalized_number :
    finalizeWithDescendentIf (⟨[⟨1, 1, 10, [⟨2, 5, 20, []⟩]⟩], none⟩ : ForkTree Nat Nat Nat) 3 3
      (fun base target => if base = 3 ∧ target = 2 then .error () else .ok true) (fun _ => true) =
      (⟨[], some 1⟩, .error (.client ())) :=
  rfl

/-! ## An oracle that never fails

With such an oracle `finalize_with_descendent_if` is the one of the fork tree model, whose errors
are the same and whose tree is the one returned.
-/

def okOracle (isDescendentOf : H → H → Bool) : H → H → Except E Bool :=
  fun base target => .ok (isDescendentOf base target)

theorem checkChildren_okOracle (hash : H) (number : N) (isDescendentOf : H → H → Bool)
    (children : List (Node H N V)) :
    checkChildren hash number (okOracle isDescendentOf : H → H → Except E Bool) children =
      if children.any fun child => decide (child.number ≤ number) &&
          (decide (child.hash = hash) || isDescendentOf child.hash hash) then
        .error .unfinalizedAncestor
      else .ok () := by
  induction children with
  | nil => rfl
  | cons child children ih =>
    rw [checkChildren]
    by_cases hle : child.number ≤ number
    · by_cases hhash : child.hash = hash
      · simp [hle, hhash]
      · cases hdesc : isDescendentOf child.hash hash
        · simp [hle, hhash, okOracle, hdesc, ih]
        · simp [hle, hhash, okOracle, hdesc]
    · simp [hle, ih]

theorem findFinalizedRoot_okOracle (hash : H) (number : N) (isDescendentOf : H → H → Bool)
    (predicate : V → Bool) :
    ∀ (i : Nat) (roots : List (Node H N V)),
      findFinalizedRoot hash number (okOracle isDescendentOf : H → H → Except E Bool) predicate i
          roots =
        (ForkTree.findFinalizedRoot hash number isDescendentOf predicate i roots).mapError
          Error.ofError
  | _, [] => rfl
  | i, root :: roots => by
    rw [findFinalizedRoot, ForkTree.findFinalizedRoot]
    -- whether the root is the one: the predicate, then the hash or the oracle
    have hfound : (if predicate root.data then
          if root.hash = hash then (Except.ok true : Except E Bool)
          else okOracle isDescendentOf root.hash hash
        else .ok false) =
        .ok (decide (predicate root.data ∧ (root.hash = hash ∨ isDescendentOf root.hash hash))) := by
      by_cases hpred : predicate root.data
      · by_cases hhash : root.hash = hash
        · simp [hpred, hhash]
        · simp [hpred, hhash, okOracle]
      · simp [hpred]
    rw [hfound]
    by_cases hroot : predicate root.data ∧ (root.hash = hash ∨ isDescendentOf root.hash hash)
    · rw [decide_eq_true hroot, if_pos hroot]
      dsimp only
      rw [checkChildren_okOracle]
      split_ifs <;> rfl
    · rw [decide_eq_false hroot, if_neg hroot]
      exact findFinalizedRoot_okOracle hash number isDescendentOf predicate (i + 1) roots

theorem retainRoots_okOracle (hash : H) (number : N) (isDescendentOf : H → H → Bool) :
    ∀ (kept roots : List (Node H N V)) (changed : Bool),
      retainRoots hash number (okOracle isDescendentOf : H → H → Except E Bool) kept roots
          changed =
        (kept ++ roots.filter (retainsRoot hash number isDescendentOf),
          .ok (changed || decide ((roots.filter (retainsRoot hash number isDescendentOf)).length ≠
            roots.length)))
  | kept, [], changed => by simp [retainRoots]
  | kept, root :: roots, changed => by
    rw [retainRoots]
    have hlen := List.length_filter_le (retainsRoot hash number isDescendentOf) roots
    -- the three tests of the source are the disjuncts of `retainsRoot`
    by_cases hdesc : number < root.number ∧ isDescendentOf hash root.hash = true
    · have hretain : retainsRoot hash number isDescendentOf root = true := by
        simp [retainsRoot, hdesc]
      simp only [okOracle, hdesc.1, if_true, hdesc.2]
      rw [retainRoots_okOracle, List.filter_cons_of_pos hretain]
      simp
    · have hdesc' : (if number < root.number then
            (okOracle isDescendentOf hash root.hash : Except E Bool) else .ok false) = .ok false := by
        by_cases hlt : number < root.number
        · simp_all [okOracle]
        · simp [hlt]
      rw [hdesc']
      dsimp only
      by_cases hself : root.number = number ∧ root.hash = hash
      · have hretain : retainsRoot hash number isDescendentOf root = true := by
          simp [retainsRoot, hself]
        rw [if_pos hself, retainRoots_okOracle, List.filter_cons_of_pos hretain]
        simp
      · rw [if_neg hself]
        cases hanc : isDescendentOf root.hash hash
        · have hretain : retainsRoot hash number isDescendentOf root = false := by
            simp_all [retainsRoot]
          simp only [okOracle, hanc]
          rw [retainRoots_okOracle, List.filter_cons_of_neg (by simp [hretain])]
          simp only [Bool.true_or, List.length_cons, Prod.mk.injEq, true_and]
          simp only [ne_eq, Except.ok.injEq]
          have : (roots.filter (retainsRoot hash number isDescendentOf)).length ≠ roots.length + 1 := by
            omega
          simp [this]
        · have hretain : retainsRoot hash number isDescendentOf root = true := by
            simp [retainsRoot, hanc]
          simp only [okOracle, hanc]
          rw [retainRoots_okOracle, List.filter_cons_of_pos hretain]
          simp

/-- With an oracle that never fails, `finalize_with_descendent_if` is the fork tree model's. -/
theorem finalizeWithDescendentIf_okOracle (t : ForkTree H N V) (hash : H) (number : N)
    (isDescendentOf : H → H → Bool) (predicate : V → Bool) :
    finalizeWithDescendentIf t hash number (okOracle isDescendentOf : H → H → Except E Bool)
        predicate =
      match ForkTree.finalizeWithDescendentIf t hash number isDescendentOf predicate with
      | .ok (t', result) => (t', .ok result)
      | .error e => (t, .error (Error.ofError e)) := by
  rw [finalizeWithDescendentIf, ForkTree.finalizeWithDescendentIf, reverts]
  split
  · rfl
  · rw [findFinalizedRoot_okOracle]
    cases hfind : ForkTree.findFinalizedRoot hash number isDescendentOf predicate 0 t.roots with
    | error e => rfl
    | ok position =>
      dsimp only [Except.mapError]
      rw [takeFinalized]
      cases hnode : position.bind fun i => t.roots[i]? with
      | none =>
        dsimp only
        rw [retainRoots_okOracle]
        simp
      | some node =>
        dsimp only
        rw [retainRoots_okOracle]
        simp

end Substrate.ForkTree.Fallible
