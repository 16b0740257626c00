import Mathlib
import Substrate.Trie.NodeHeader

/-! # The node codec

`NodeCodec` of `src/primitives/trie/src/node_codec.rs`, no-extension layout. `decode_plan` returns
ranges, which `NodePlan.build` turns into the node, and is `none` where its read of the padding
at `data[input.offset]` panics.
-/

namespace Substrate.Trie

open Decoder

def nibblePerByte : Nat := 2

def nibbleLength : Nat := 16

def bitmapLength : Nat := 2

/-- `nibble_ops::pad_left`: the high nibble of a byte, the padding before a partial key of odd
length. -/
def padLeft (b : UInt8) : UInt8 := b &&& 0xF0

def numberPadding (i : Nat) : Nat := i % nibblePerByte

inductive NodeKind
  | leaf
  | branchNoValue
  | branchWithValue
  | hashedValueLeaf
  | hashedValueBranch
  deriving DecidableEq, Repr

/-- `trie_db::node::Value`: a value inline, or the hash of a value stored apart. -/
inductive Value
  | inline (value : List UInt8)
  | node (hash : List UInt8)
  deriving DecidableEq, Repr

def Value.isNode : Value → Bool
  | .node _ => true
  | .inline _ => false

/-- `ChildReference`: a child by its hash, an `H::Out`, or inline by its encoding, the first `len`
bytes of an `H::Out`; each carries the bound its `H::Out` sets. -/
inductive ChildReference (hashLength : Nat)
  | hash (h : List UInt8) (length_eq : h.length = hashLength)
  | inline (data : List UInt8) (length_le : data.length ≤ hashLength)

/-! ## Plans and nodes -/

/-- `ValuePlan`: the range of an inline value, or of the hash of one. -/
inductive ValuePlan
  | inline (range : Nat × Nat)
  | node (range : Nat × Nat)
  deriving DecidableEq, Repr

/-- `NodeHandlePlan`: the range of a child's hash, or of its encoding inline. -/
inductive NodeHandlePlan
  | hash (range : Nat × Nat)
  | inline (range : Nat × Nat)
  deriving DecidableEq, Repr

/-- `NibbleSlicePlan`: the range of a partial key's bytes and the padding nibbles before it. -/
structure NibbleSlicePlan where
  bytes : Nat × Nat
  offset : Nat
  deriving DecidableEq, Repr

/-- `NodePlan`, with the kinds of the no-extension layout; `decode_plan` makes no other. -/
inductive NodePlan
  | empty
  | leaf (partialKey : NibbleSlicePlan) (value : ValuePlan)
  | nibbledBranch (partialKey : NibbleSlicePlan) (value : Option ValuePlan)
      (children : List (Option NodeHandlePlan))
  deriving DecidableEq, Repr

/-- `NibbleSlice`: bytes of nibbles and the padding nibbles at their start. -/
structure NibbleSlice where
  data : List UInt8
  offset : Nat
  deriving DecidableEq, Repr

/-- `NodeHandle`: a child's hash, or its encoding inline. -/
inductive NodeHandle
  | hash (h : List UInt8)
  | inline (data : List UInt8)
  deriving DecidableEq, Repr

/-- `trie_db::node::Node`, with the kinds of the no-extension layout. -/
inductive Node
  | empty
  | leaf (partialKey : NibbleSlice) (value : Value)
  | nibbledBranch (partialKey : NibbleSlice) (children : List (Option NodeHandle))
      (value : Option Value)
  deriving DecidableEq, Repr

def ChildReference.toHandle {hashLength : Nat} : ChildReference hashLength → NodeHandle
  | .hash h _ => .hash h
  | .inline data _ => .inline data

def ValuePlan.build (data : List UInt8) : ValuePlan → Value
  | .inline range => .inline (slice data range)
  | .node range => .node (slice data range)

def NodeHandlePlan.build (data : List UInt8) : NodeHandlePlan → NodeHandle
  | .hash range => .hash (slice data range)
  | .inline range => .inline (slice data range)

def NibbleSlicePlan.build (data : List UInt8) (plan : NibbleSlicePlan) : NibbleSlice :=
  ⟨slice data plan.bytes, plan.offset⟩

def NodePlan.build (data : List UInt8) : NodePlan → Node
  | .empty => .empty
  | .leaf partialKey value => .leaf (partialKey.build data) (value.build data)
  | .nibbledBranch partialKey value children =>
      .nibbledBranch (partialKey.build data) (children.map (Option.map (NodeHandlePlan.build data)))
        (value.map (ValuePlan.build data))

def ValuePlan.range : ValuePlan → Nat × Nat
  | .inline range | .node range => range

def NodeHandlePlan.range : NodeHandlePlan → Nat × Nat
  | .hash range | .inline range => range

def NodePlan.ranges : NodePlan → List (Nat × Nat)
  | .empty => []
  | .leaf partialKey value => [partialKey.bytes, value.range]
  | .nibbledBranch partialKey value children =>
      partialKey.bytes :: (value.map ValuePlan.range).toList ++
        children.filterMap (Option.map NodeHandlePlan.range)

/-! ## The bitmap of a branch's children -/

/-- One step of the loop of `Bitmap::encode` and of `branch_node_bit_mask`: the bit at the cursor
for a child present, and the cursor on to the next bit. -/
def bitmapStep (acc : UInt16 × UInt16) (v : Bool) : UInt16 × UInt16 :=
  (if v then acc.1 ||| acc.2 else acc.1, acc.2 <<< 1)

/-- The bitmap of the children present, the first at the lowest bit. -/
def bitmapOf (hasChildren : List Bool) : UInt16 := (hasChildren.foldl bitmapStep (0, 1)).1

namespace Bitmap

/-- `Bitmap::decode`: the little-endian `u16` of the two bytes, which must not be zero. -/
def decode (data : List UInt8) : Except Error UInt16 :=
  match data with
  | b0 :: b1 :: _ =>
      let value := (leValue [b0, b1]).toUInt16
      if value = 0 then .error (.codec "Bitmap without a child.") else .ok value
  | _ => .error (.codec "Not enough data to fill buffer")

def valueAt (bitmap : UInt16) (i : Nat) : Bool := bitmap &&& (1 <<< i.toUInt16) != 0

/-- `Bitmap::encode`: the two bytes it writes to `dest`. -/
def encode (hasChildren : List Bool) : UInt8 × UInt8 :=
  let bitmap := bitmapOf hasChildren
  ((bitmap % 256).toUInt8, (bitmap / 256).toUInt8)

end Bitmap

/-! ## Encoding -/

variable (compact : Compact)

def encodeSlice (bytes : List UInt8) : List UInt8 := compact.encode bytes.length ++ bytes

/-- What `leaf_node` and `branch_node_nibbled` write for a value: the length, as a `u32`, and the
bytes of an inline value, or the hash of a hashed one. -/
def encodeValue : Value → List UInt8
  | .inline value => compact.encode (value.length % 2 ^ 32) ++ value
  | .node hash => hash

/-- `partial_from_iterator_encode`: the header of the kind, then the partial key's bytes. -/
def partialFromIteratorEncode (partialKey : List UInt8) (nibbleCount : Nat) (nodeKind : NodeKind) :
    List UInt8 :=
  let header : NodeHeader := match nodeKind with
    | .leaf => .leaf nibbleCount
    | .branchWithValue => .branch true nibbleCount
    | .branchNoValue => .branch false nibbleCount
    | .hashedValueLeaf => .hashedValueLeaf nibbleCount
    | .hashedValueBranch => .hashedValueBranch nibbleCount
  header.encode ++ partialKey

def leafNode (partialKey : List UInt8) (numberNibble : Nat) (value : Value) : List UInt8 :=
  let containsHash := value.isNode
  let output :=
    if containsHash then partialFromIteratorEncode partialKey numberNibble .hashedValueLeaf
    else partialFromIteratorEncode partialKey numberNibble .leaf
  output ++ encodeValue compact value

def encodeChild {hashLength : Nat} : Option (ChildReference hashLength) → List UInt8 × Bool
  | some (.hash h _) => (encodeSlice compact h, true)
  | some (.inline data _) => (encodeSlice compact data, true)
  | none => ([], false)

/-- `NodeCodec::branch_node_nibbled`: the bitmap is written as two zero bytes, and overwritten once
the children are written. -/
def branchNodeNibbled {hashLength : Nat} (partialKey : List UInt8) (numberNibble : Nat)
    (children : List (Option (ChildReference hashLength))) (value : Option Value) : List UInt8 :=
  let containsHash := match value with
    | some (.node _) => true
    | _ => false
  let output := match value, containsHash with
    | none, _ => partialFromIteratorEncode partialKey numberNibble .branchNoValue
    | _, false => partialFromIteratorEncode partialKey numberNibble .branchWithValue
    | _, true => partialFromIteratorEncode partialKey numberNibble .hashedValueBranch
  let bitmapIndex := output.length
  let output := output ++ List.replicate bitmapLength 0
  let output := match value with
    | some value => output ++ encodeValue compact value
    | none => output
  let written := children.map (encodeChild compact)
  let output := output ++ (written.map Prod.fst).flatten
  let bitmap := Bitmap.encode (written.map Prod.snd)
  (output.set bitmapIndex bitmap.1).set (bitmapIndex + 1) bitmap.2

/-! ## Decoding -/

/-- The value of a leaf, or of a branch with one: a hash of `H::LENGTH` bytes, or the length and
the bytes of an inline value. -/
def decodeValue (hashLength : Nat) (containsHash : Bool) : Decoder UInt8 Error ValuePlan :=
  if containsHash then do
    return .node (← ByteSliceInput.take hashLength)
  else do
    let count ← compact.decode
    return .inline (← ByteSliceInput.take count)

/-- The body of the loop over the children: a child where the bitmap has its bit, a hash when its
length is that of a hash and inline otherwise. -/
def decodeChild (hashLength : Nat) (bitmap : UInt16) (i : Nat) :
    Decoder UInt8 Error (Option NodeHandlePlan) :=
  if Bitmap.valueAt bitmap i then do
    let count ← compact.decode
    let range ← ByteSliceInput.take count
    return some (if count = hashLength then .hash range else .inline range)
  else pure none

/-- The arm of `decode_plan` for a leaf, after the padding check. -/
def decodeLeaf (hashLength : Nat) (containsHash : Bool) (nibbleCount : Nat) :
    Decoder UInt8 Error NodePlan := do
  let partialRange ← ByteSliceInput.take ((nibbleCount + (nibblePerByte - 1)) / nibblePerByte)
  let partialPadding := numberPadding nibbleCount
  let value ← decodeValue compact hashLength containsHash
  return .leaf ⟨partialRange, partialPadding⟩ value

/-- The arm of `decode_plan` for a branch, after the padding check. -/
def decodeBranch (hashLength : Nat) (containsHash branchHasValue : Bool) (nibbleCount : Nat) :
    Decoder UInt8 Error NodePlan := do
  let partialRange ← ByteSliceInput.take ((nibbleCount + (nibblePerByte - 1)) / nibblePerByte)
  let partialPadding := numberPadding nibbleCount
  let bitmapRange ← ByteSliceInput.take bitmapLength
  let bitmap ← Bitmap.decode (slice (← get).data bitmapRange)
  let value ← (if branchHasValue then do
      let value ← decodeValue compact hashLength containsHash
      pure (some value)
    else pure none)
  let children ← (List.range nibbleLength).mapM (decodeChild compact hashLength bitmap)
  return .nibbledBranch ⟨partialRange, partialPadding⟩ value children

/-- The padding check of `decode_plan`: with an odd nibble count the next byte's high nibble must be
zero; `none` where `data[input.offset]` panics. -/
def checkPadding (nibbleCount : Nat) (input : ByteSliceInput) : Option (Except Error Unit) :=
  let padding := nibbleCount % nibblePerByte ≠ 0
  if padding then
    match input.data[input.offset]? with
    | none => none
    | some b => some (if padLeft b ≠ 0 then .error .badFormat else .ok ())
  else some (.ok ())

/-- The arms of `decode_plan`, after the header. -/
def decodeBody (hashLength : Nat) (header : NodeHeader) (input : ByteSliceInput) :
    Option (Except Error (NodePlan × ByteSliceInput)) :=
  let containsHash := header.containsHashOfValue
  let branchHasValue := match header with
    | .branch hasValue _ => hasValue
    | _ => true
  match header with
  | .null => some (.ok (.empty, input))
  | .hashedValueBranch nibbleCount | .branch _ nibbleCount =>
      (checkPadding nibbleCount input).map fun checked =>
        checked.bind fun _ =>
          decodeBranch compact hashLength containsHash branchHasValue nibbleCount input
  | .hashedValueLeaf nibbleCount | .leaf nibbleCount =>
      (checkPadding nibbleCount input).map fun checked =>
        checked.bind fun _ => decodeLeaf compact hashLength containsHash nibbleCount input

/-- `NodeCodec::decode_plan`, returning with the plan the input where it stopped, which tells what
it consumed; `none` where the source panics. -/
def decodePlan (hashLength : Nat) (data : List UInt8) :
    Option (Except Error (NodePlan × ByteSliceInput)) :=
  match NodeHeader.decode ⟨data, 0⟩ with
  | .error e => some (.error e)
  | .ok (header, input) => decodeBody compact hashLength header input

/-! ## The encoders in closed form -/

def NodeHandle.bytes : NodeHandle → List UInt8
  | .hash h | .inline h => h

def encodeHandle : Option NodeHandle → List UInt8
  | none => []
  | some handle => encodeSlice compact handle.bytes

variable {compact} {hashLength : Nat}

theorem fst_encodeChild (child : Option (ChildReference hashLength)) :
    (encodeChild compact child).1 =
      encodeHandle compact (child.map ChildReference.toHandle) := by
  rcases child with _ | _ | _ <;> rfl

theorem snd_encodeChild (child : Option (ChildReference hashLength)) :
    (encodeChild compact child).2 = child.isSome := by
  rcases child with _ | _ | _ <;> rfl

def branchKind : Option Value → NodeKind
  | none => .branchNoValue
  | some (.inline _) => .branchWithValue
  | some (.node _) => .hashedValueBranch

theorem set_placeholder (pre rest : List UInt8) (b0 b1 : UInt8) :
    (((pre ++ List.replicate bitmapLength 0) ++ rest).set pre.length b0).set (pre.length + 1) b1 =
      pre ++ [b0, b1] ++ rest := by
  rw [List.append_assoc, List.set_append_right _ _ (Nat.le_refl _), Nat.sub_self,
    List.set_append_right _ _ (Nat.le_add_right _ 1), Nat.add_sub_cancel_left, List.append_assoc]
  rfl

/-- A branch is its header, partial key, children bitmap, value and children: the two bytes written
for the bitmap before the value are overwritten by it. -/
theorem branchNodeNibbled_eq (partialKey : List UInt8) (numberNibble : Nat)
    (children : List (Option (ChildReference hashLength))) (value : Option Value) :
    branchNodeNibbled compact partialKey numberNibble children value =
      partialFromIteratorEncode partialKey numberNibble (branchKind value) ++
        [(Bitmap.encode (children.map Option.isSome)).1,
          (Bitmap.encode (children.map Option.isSome)).2] ++
        (value.map (encodeValue compact)).getD [] ++
        (children.map fun child =>
          encodeHandle compact (child.map ChildReference.toHandle)).flatten := by
  have hbits :
      (children.map (encodeChild compact)).map Prod.snd = children.map Option.isSome := by
    rw [List.map_map]
    exact List.map_congr_left fun child _ => snd_encodeChild child
  have hbytes : (children.map (encodeChild compact)).map Prod.fst =
      children.map fun child => encodeHandle compact (child.map ChildReference.toHandle) := by
    rw [List.map_map]
    exact List.map_congr_left fun child _ => fst_encodeChild child
  -- one case for each of the source's three headers
  rcases value with _ | ⟨v⟩ | ⟨v⟩
  · simp only [branchNodeNibbled]
    rw [hbits, hbytes, set_placeholder]
    simp [branchKind]
  · simp only [branchNodeNibbled]
    rw [hbits, hbytes, List.append_assoc (_ ++ _), set_placeholder]
    simp [branchKind]
  · simp only [branchNodeNibbled]
    rw [hbits, hbytes, List.append_assoc (_ ++ _), set_placeholder]
    simp [branchKind]

/-! ## The bits of the bitmap -/

theorem toNat_shiftLeft_cursor {c : UInt16} {k : Nat} (hc : c.toNat = 2 ^ k % 2 ^ 16) :
    (c <<< 1).toNat = 2 ^ (k + 1) % 2 ^ 16 := by
  have hone : (1 : UInt16).toNat % 16 = 1 := rfl
  rw [UInt16.toNat_shiftLeft, hc, Nat.shiftLeft_eq, hone, Nat.pow_one, Nat.mod_mul_mod, ← Nat.pow_succ]

/-- The loop sets, from the bit of its cursor `2^k` on, the bit of each child present and leaves the
bits before; by induction on the children. -/
theorem testBit_foldl_bitmapStep : ∀ (bs : List Bool) (b c : UInt16) (k : Nat),
    c.toNat = 2 ^ k % 2 ^ 16 → ∀ j < 16,
      (bs.foldl bitmapStep (b, c)).1.toNat.testBit j =
        (b.toNat.testBit j || (decide (k ≤ j) && bs.getD (j - k) false))
  | [], b, c, k, _, j, _ => by simp
  | v :: bs, b, c, k, hc, j, hj => by
    have hbit : (if v then b ||| c else b).toNat.testBit j =
        (b.toNat.testBit j || (v && decide (k = j))) := by
      cases v
      · simp
      · rw [if_pos rfl, UInt16.toNat_or, Nat.testBit_or, hc, Nat.testBit_mod_two_pow,
          Nat.testBit_two_pow]
        simp [hj]
    rw [List.foldl_cons, bitmapStep,
      testBit_foldl_bitmapStep bs _ _ (k + 1) (toNat_shiftLeft_cursor hc) j hj, hbit]
    rcases Nat.lt_trichotomy j k with hlt | rfl | hgt
    · simp [show ¬k = j by omega, show ¬k + 1 ≤ j by omega, show ¬k ≤ j by omega]
    · simp
    · -- past the cursor, the bit is the next children's
      obtain ⟨m, rfl⟩ : ∃ m, j = k + 1 + m := ⟨j - (k + 1), by omega⟩
      simp [show k + 1 + m - k = m + 1 by omega, show ¬k = k + 1 + m by omega,
        show k ≤ k + 1 + m by omega]

theorem testBit_bitmapOf (bs : List Bool) {j : Nat} (hj : j < 16) :
    (bitmapOf bs).toNat.testBit j = bs.getD j false := by
  rw [bitmapOf, testBit_foldl_bitmapStep bs 0 1 0 rfl j hj]
  simp

variable {i : Nat}

theorem valueAt_eq_testBit (bitmap : UInt16) (hi : i < 16) :
    Bitmap.valueAt bitmap i = bitmap.toNat.testBit i := by
  have hone : ((1 : UInt16) <<< i.toUInt16).toNat = 2 ^ i := by
    rw [UInt16.toNat_shiftLeft]
    simp only [UInt16.reduceToNat, Nat.toUInt16_eq, UInt16.toNat_ofNat']
    rw [Nat.mod_eq_of_lt (by omega : i < 2 ^ 16), Nat.mod_eq_of_lt hi, Nat.one_shiftLeft,
      Nat.mod_eq_of_lt (Nat.pow_lt_pow_right (by decide) hi)]
  have hand : (bitmap &&& 1 <<< i.toUInt16).toNat = (bitmap.toNat.testBit i).toNat * 2 ^ i := by
    rw [UInt16.toNat_and, hone, Nat.and_two_pow]
  rw [Bitmap.valueAt]
  cases hb : bitmap.toNat.testBit i
  · have hzero : bitmap &&& 1 <<< i.toUInt16 = 0 := UInt16.toNat_inj.mp (by simp [hand, hb])
    simp [hzero]
  · have hne : bitmap &&& 1 <<< i.toUInt16 ≠ 0 := by
      intro hzero
      have h := congrArg UInt16.toNat hzero
      rw [hand, hb] at h
      simp at h
    simp [hne]

/-- The bit of each of the first sixteen children is whether it is present. -/
theorem valueAt_bitmapOf (bs : List Bool) (hi : i < 16) :
    Bitmap.valueAt (bitmapOf bs) i = bs.getD i false := by
  rw [valueAt_eq_testBit _ hi, testBit_bitmapOf bs hi]

theorem bitmapOf_valueAt (bitmap : UInt16) :
    bitmapOf ((List.range nibbleLength).map (Bitmap.valueAt bitmap)) = bitmap := by
  apply UInt16.toNat_inj.mp
  apply Nat.eq_of_testBit_eq
  intro j
  by_cases hj : j < 16
  · rw [testBit_bitmapOf _ hj, List.getD_eq_getElem?_getD, List.getElem?_map,
      List.getElem?_range (by rw [nibbleLength]; exact hj), Option.map_some, Option.getD_some,
      valueAt_eq_testBit _ hj]
  · rw [Nat.testBit_lt_two_pow (lt_of_lt_of_le (UInt16.toNat_lt _) (Nat.pow_le_pow_right (by decide)
      (by omega))), Nat.testBit_lt_two_pow (lt_of_lt_of_le (UInt16.toNat_lt _)
      (Nat.pow_le_pow_right (by decide) (by omega)))]

theorem bitmapOf_ne_zero {bs : List Bool} (hi : i < 16) (hbit : bs.getD i false = true) :
    bitmapOf bs ≠ 0 := by
  intro hzero
  have h := testBit_bitmapOf bs hi
  rw [hzero, hbit] at h
  simp at h

/-- `Bitmap::decode` reads back the two bytes `Bitmap::encode` writes. -/
theorem leValue_encode (bitmap : UInt16) :
    (leValue [(bitmap % 256).toUInt8, (bitmap / 256).toUInt8]).toUInt16 = bitmap := by
  apply UInt16.toNat_inj.mp
  have hlt := bitmap.toNat_lt
  simp only [leValue, UInt16.toNat_toUInt8, UInt16.toNat_mod, UInt16.toNat_div,
    UInt16.reduceToNat, Nat.toUInt16_eq, UInt16.toNat_ofNat']
  omega

/-- And `Bitmap::encode` writes back the two bytes `Bitmap::decode` reads. -/
theorem encode_leValue (b0 b1 : UInt8) :
    (((leValue [b0, b1]).toUInt16 % 256).toUInt8, ((leValue [b0, b1]).toUInt16 / 256).toUInt8) =
      (b0, b1) := by
  have h0 := b0.toNat_lt
  have h1 := b1.toNat_lt
  rw [Prod.mk.injEq, ← UInt8.toNat_inj, ← UInt8.toNat_inj]
  simp only [leValue, UInt16.toNat_toUInt8, UInt16.toNat_mod, UInt16.toNat_div,
    UInt16.reduceToNat, Nat.toUInt16_eq, UInt16.toNat_ofNat']
  omega

end Substrate.Trie
