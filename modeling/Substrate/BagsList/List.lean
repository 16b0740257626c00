import Substrate.Lib.BinarySearch

/-! # The bags list

`List` of `pallet_bags_list` (`src/frame/bags-list/src/list/mod.rs`): ids with a score, in bags
named by their upper threshold, the bag `Score::max_value()` always there. A bag is its ids from
head to tail, so `prev` and `next` are neighbours there. Scores are a linear order with a top.
-/

namespace Substrate.BagsList

open BinarySearch

variable {A S : Type}

/-- `notional_bag_for`: the first threshold the score is not above, or `Score::max_value()`. -/
def notionalBagFor [LinearOrder S] [OrderTop S] (thresholds : List S) (score : S) : S :=
  (thresholds[partitionPoint thresholds fun threshold => decide (threshold < score)]?).getD ⊤

inductive ListError where
  | duplicate
  | notHeavier
  | notInSameBag
  | nodeNotFound
  deriving DecidableEq, Repr

/-- What `ListNodes` keeps of a node besides its neighbours. -/
structure Node (S : Type) where
  bagUpper : S
  score : S
  deriving DecidableEq, Repr

structure State (A S : Type) where
  /-- `ListBags`: each stored bag, as its ids from head to tail. -/
  bags : S → Option (List A)
  /-- `ListNodes`. -/
  nodes : A → Option (Node S)

namespace State

/-- The ids of `Bag::get(bag)`, none for a bag that is not stored. -/
def bagIds (s : State A S) (bag : S) : List A := (s.bags bag).getD []

def contains (s : State A S) (id : A) : Bool := (s.nodes id).isSome

def putBag [DecidableEq S] (s : State A S) (bag : S) (ids : List A) : State A S :=
  { s with bags := Function.update s.bags bag (if ids.isEmpty then none else some ids) }

def putNode [DecidableEq A] (s : State A S) (id : A) (node : Node S) : State A S :=
  { s with nodes := Function.update s.nodes id (some node) }

def removeNode [DecidableEq A] (s : State A S) (id : A) : State A S :=
  { s with nodes := Function.update s.nodes id none }

def removeBag [DecidableEq S] (s : State A S) (bag : S) : State A S :=
  { s with bags := Function.update s.bags bag none }

@[simp] theorem putBag_nodes [DecidableEq S] (s : State A S) (bag : S) (ids : List A) :
    (s.putBag bag ids).nodes = s.nodes := rfl

@[simp] theorem putNode_bags [DecidableEq A] (s : State A S) (id : A) (node : Node S) :
    (s.putNode id node).bags = s.bags := rfl

@[simp] theorem putNode_nodes [DecidableEq A] (s : State A S) (id : A) (node : Node S) :
    (s.putNode id node).nodes = Function.update s.nodes id (some node) := rfl

@[simp] theorem removeNode_bags [DecidableEq A] (s : State A S) (id : A) : (s.removeNode id).bags = s.bags := rfl

@[simp] theorem removeNode_nodes [DecidableEq A] (s : State A S) (id : A) :
    (s.removeNode id).nodes = Function.update s.nodes id none := rfl

@[simp] theorem removeBag_nodes [DecidableEq S] (s : State A S) (bag : S) : (s.removeBag bag).nodes = s.nodes :=
  rfl

@[simp] theorem removeBag_bags [DecidableEq S] (s : State A S) (bag : S) :
    (s.removeBag bag).bags = Function.update s.bags bag none := rfl

theorem bagIds_putBag [DecidableEq S] (s : State A S) (bag bag' : S) (ids : List A) :
    (s.putBag bag ids).bagIds bag' = if bag' = bag then ids else s.bagIds bag' := by
  unfold putBag bagIds
  by_cases hbag : bag' = bag
  · subst hbag
    cases ids <;> simp
  · simp [hbag]

@[simp] theorem bagIds_putNode [DecidableEq A] (s : State A S) (id : A) (node : Node S) :
    (s.putNode id node).bagIds = s.bagIds := rfl

@[simp] theorem bagIds_removeNode [DecidableEq A] (s : State A S) (id : A) : (s.removeNode id).bagIds = s.bagIds :=
  rfl

end State

variable [LinearOrder A] [LinearOrder S] [OrderTop S]

def insert (thresholds : List S) (s : State A S) (id : A) (score : S) :
    Except ListError (State A S) :=
  if s.contains id then .error .duplicate
  else
    let bagScore := notionalBagFor thresholds score
    -- `Bag::get_or_make`
    let bag := s.bagIds bagScore
    -- `insert_node_unchecked` refuses a node with the id of the tail; the bag is put back anyway
    if bag.getLast? = some id then .ok (s.putBag bagScore bag)
    else .ok ((s.putNode id ⟨bagScore, score⟩).putBag bagScore (bag ++ [id]))

def removeStep (acc : State A S × Nat) (id : A) : State A S × Nat :=
  match acc.1.nodes id with
  | none => acc
  | some node =>
    ((acc.1.putBag node.bagUpper ((acc.1.bagIds node.bagUpper).erase id)).removeNode id,
      acc.2 + 1)

def removeMany (s : State A S) (ids : List A) : State A S × Nat :=
  ids.foldl removeStep (s, 0)

/-- One id of `insert_many`: an insertion that succeeds is counted. -/
def insertStep (thresholds : List S) (scoreOf : A → S) (acc : State A S × Nat) (id : A) :
    State A S × Nat :=
  match insert thresholds acc.1 id (scoreOf id) with
  | .ok s => (s, acc.2 + 1)
  | .error _ => acc

def insertMany (thresholds : List S) (ids : List A) (scoreOf : A → S) (s : State A S) :
    State A S × Nat :=
  ids.foldl (insertStep thresholds scoreOf) (s, 0)

def affectBag (s : State A S) (acc : Finset A × Finset S) (bag : S) : Finset A × Finset S :=
  if bag ∈ acc.2 then acc
  else (acc.1 ∪ (s.bagIds bag).toFinset, Insert.insert bag acc.2)

def affectedAccounts (thresholds oldThresholds : List S) (s : State A S) : Finset A :=
  let oldSet := oldThresholds.toFinset
  let newSet := thresholds.toFinset
  -- a new threshold splits the old bag it falls in, `notional_bag_for` on the old thresholds
  let affected := ((newSet \ oldSet).sort (· ≤ ·)).foldl
    (fun acc insertedBag => affectBag s acc (notionalBagFor oldThresholds insertedBag)) (∅, ∅)
  (((oldSet \ newSet).sort (· ≤ ·)).foldl (affectBag s) affected).1

/-- `List::migrate(old_thresholds)`, `T::BagThresholds` being the new `thresholds`; `num_affected`
is a `u32`. -/
def migrate (thresholds oldThresholds : List S) (scoreOf : A → S) (s : State A S) :
    State A S × Nat :=
  if thresholds = oldThresholds then (s, 0)
  else
    let affected := affectedAccounts thresholds oldThresholds s
    let removedBags := (oldThresholds.toFinset \ thresholds.toFinset).sort (· ≤ ·)
    let s' := (removeMany s (affected.sort (· ≤ ·))).1
    let s' := (insertMany thresholds (affected.sort (· ≤ ·)) scoreOf s').1
    -- the removed bags leave storage only now, after every id has left them
    (removedBags.foldl State.removeBag s', affected.card % 2 ^ 32)

end Substrate.BagsList
