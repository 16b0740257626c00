import Mathlib

/-! # Binary Merkle tree of `binary-merkle-tree`

`src/utils/binary-merkle-tree/src/lib.rs`: leaves hashed with the hasher of the inner nodes, an
inner node the hash of its two children concatenated, a last odd node promoted; the root, the proof
collection by a visitor, and the verifier.
-/

namespace Substrate.Merkle

/-- The parts of `hash_db::Hasher` the crate uses: the hash of a byte string
and the bytes of an output (`AsRef<[u8]>`). -/
structure Hasher (Out : Type) where
  hash : List UInt8 → Out
  asRef : Out → List UInt8

variable {Out V : Type}

/-- An inner node: `combined` holds the left child's bytes followed by the
right child's, and is hashed again. -/
def Hasher.node (H : Hasher Out) (left right : Out) : Out :=
  H.hash (H.asRef left ++ H.asRef right)

/-- The `Visitor` trait: notified when merkelization moves one row up and
for every pair it reads, `left` at `index`. -/
structure Visitor (Out V : Type) where
  moveUp : V → V
  visit : V → Nat → Option Out → Option Out → V

def Visitor.unit : Visitor Out Unit where
  moveUp _ := ()
  visit _ _ _ _ := ()

/-- The loop of `merkelize_row`: hash two items into `next`, promote a last odd item, or stop; a
single item with nothing before it is the root. -/
def merkelizeRowLoop (H : Hasher Out) (visitor : Visitor Out V) :
    Nat → List Out → List Out → V → V × Except (List Out) Out
  | index, a :: b :: rest, next, v =>
      merkelizeRowLoop H visitor (index + 2) rest (next ++ [H.node a b])
        (visitor.visit v index (some a) (some b))
  | index, [a], next, v =>
      let v := visitor.visit v index (some a) none
      if next.isEmpty then (v, .ok a)
      else (visitor.visit v (index + 2) none none, .error (next ++ [a]))
  | index, [], next, v => (visitor.visit v index none none, .error next)

/-- `merkelize_row`: `Ok` with the root when the row has a single item,
otherwise `Err` with the row above (also for an empty row). -/
def merkelizeRow (H : Hasher Out) (visitor : Visitor Out V) (row : List Out) (v : V) :
    V × Except (List Out) Out :=
  merkelizeRowLoop H visitor 0 row [] v

def parentRow (H : Hasher Out) : List Out → List Out
  | a :: b :: rest => H.node a b :: parentRow H rest
  | [a] => [a]
  | [] => []

variable (H : Hasher Out)

@[simp] theorem parentRow_length (row : List Out) :
    (parentRow H row).length = (row.length + 1) / 2 := by
  induction row using parentRow.induct with
  | case1 a b rest ih =>
    simp only [parentRow, List.length_cons, ih]
    omega
  | case2 a => simp [parentRow]
  | case3 => simp [parentRow]

theorem merkelizeRowLoop_result (visitor : Visitor Out V)
    (index : Nat) (row next : List Out) (v : V) :
    (merkelizeRowLoop H visitor index row next v).2 =
      if next = [] ∧ row.length = 1 then .ok (row.headD (H.hash []))
      else .error (next ++ parentRow H row) := by
  induction row using parentRow.induct generalizing index next v with
  | case1 a b rest ih =>
    rw [merkelizeRowLoop, ih]
    simp [parentRow]
  | case2 a =>
    cases next with
    | nil => simp [merkelizeRowLoop]
    | cons c cs => simp [merkelizeRowLoop, parentRow]
  | case3 => simp [merkelizeRowLoop, parentRow]

/-- A row of two or more items gives the row above, which is shorter. -/
theorem merkelizeRow_error_of_two_le (visitor : Visitor Out V)
    (row : List Out) (v : V) (hrow : 2 ≤ row.length) :
    (merkelizeRow H visitor row v).2 = .error (parentRow H row) := by
  rw [merkelizeRow, merkelizeRowLoop_result]
  simp only [List.nil_append, true_and]
  rw [if_neg (by omega)]

/-- The `loop` of `merkelize` on an upper row. Every round halves a row of two or more items, so the
row's length is fuel enough (`merkelizeLoop_root`). -/
def merkelizeLoop [Inhabited Out] (H : Hasher Out) (visitor : Visitor Out V) :
    Nat → List Out → V → V × Out
  | 0, _, v => (v, default)
  | fuel + 1, next, v =>
      let v := visitor.moveUp v
      match merkelizeRow H visitor next v with
      | (v, .ok root) => (v, root)
      | (v, .error upper) => merkelizeLoop H visitor fuel upper v

/-- `merkelize`: the first row comes from the leaves; an empty one gives the
default hash. -/
def merkelize [Inhabited Out] (H : Hasher Out) (visitor : Visitor Out V)
    (leaves : List Out) (v : V) : V × Out :=
  match merkelizeRow H visitor leaves v with
  | (v, .ok root) => (v, root)
  | (v, .error next) =>
      if next.isEmpty then (v, default) else merkelizeLoop H visitor next.length next v

def merkleRoot [Inhabited Out] (H : Hasher Out) (leaves : List (List UInt8)) : Out :=
  (merkelize H Visitor.unit (leaves.map H.hash) ()).2

/-- The state of `ProofCollection` inside `merkle_proof`. -/
structure ProofCollection (Out : Type) where
  proof : List Out
  position : Nat

/-- `ProofCollection`'s visitor: at the left branch the right item goes to
the proof, at the right branch the left one. -/
def ProofCollection.visitor : Visitor Out (ProofCollection Out) where
  moveUp c := { c with position := c.position / 2 }
  visit c index left right :=
    let c := if c.position = index then
      match right with
      | some right => { c with proof := c.proof ++ [right] }
      | none => c
      else c
    if c.position = index + 1 then
      match left with
      | some left => { c with proof := c.proof ++ [left] }
      | none => c
    else c

theorem ProofCollection.moveUp_eq (c : ProofCollection Out) :
    ProofCollection.visitor.moveUp c = { proof := c.proof, position := c.position / 2 } := rfl

/-- A visit records the right item at the left branch and the left item at
the right branch; the position only changes when moving up. -/
theorem ProofCollection.visit_eq (c : ProofCollection Out) (index : Nat)
    (left right : Option Out) :
    ProofCollection.visitor.visit c index left right =
      { proof := c.proof ++ (if c.position = index then right.toList else []) ++
          (if c.position = index + 1 then left.toList else []),
        position := c.position } := by
  obtain ⟨proof, position⟩ := c
  simp only [ProofCollection.visitor]
  by_cases hright : position = index
  · have hleft : position ≠ index + 1 := by omega
    cases right <;> simp [hright]
  · cases left <;> by_cases hleft : position = index + 1 <;> simp [hright, hleft]

/-- `MerkleProof`: the root, the sibling hashes, the number of leaves, the
index and the leaf content. -/
structure MerkleProof (Out : Type) where
  root : Out
  proof : List Out
  numberOfLeaves : Nat
  leafIndex : Nat
  leaf : List UInt8

/-- `merkle_proof`; `none` where the source panics on a `leaf_index` that is
not below the number of leaves. -/
def merkleProof [Inhabited Out] (H : Hasher Out) (leaves : List (List UInt8))
    (leafIndex : Nat) : Option (MerkleProof Out) :=
  let collected := merkelize H ProofCollection.visitor (leaves.map H.hash)
    { proof := [], position := leafIndex }
  leaves[leafIndex]?.map fun leaf =>
    { root := collected.2, proof := collected.1.proof, numberOfLeaves := leaves.length,
      leafIndex, leaf }

/-- `Leaf`: a content to hash first, or the hash itself. -/
inductive Leaf (Out : Type) where
  | value (content : List UInt8)
  | hash (hash : Out)

/-- One step of the fold in `verify_proof`: the item goes left when the position is odd or last in
its row; then position and width move one row up. -/
def verifyStep (H : Hasher Out) : Out × Nat × Nat → Out → Out × Nat × Nat
  | (a, position, width), b =>
      let combined :=
        if position % 2 = 1 ∨ position + 1 = width then H.asRef b ++ H.asRef a
        else H.asRef a ++ H.asRef b
      (H.hash combined, position / 2, (width - 1) / 2 + 1)

/-- `verify_proof`: fold the proof items over the leaf hash and compare with
the root. The number of items is not checked. -/
def verifyProof [DecidableEq Out] (H : Hasher Out) (root : Out) (proof : List Out)
    (numberOfLeaves leafIndex : Nat) (leaf : Leaf Out) : Bool :=
  if numberOfLeaves ≤ leafIndex then false
  else
    let leafHash := match leaf with
      | .value content => H.hash content
      | .hash hash => hash
    decide (root = (proof.foldl (verifyStep H) (leafHash, leafIndex, numberOfLeaves)).1)

end Substrate.Merkle
