import Mathlib
import Substrate.Trie.NodeCodecLaws

/-! # The trie stream

`TrieStream` of `src/primitives/trie/src/trie_stream.rs` writes nodes from nibbles, `NodeCodec` from
packed keys and child references; they write the same bytes for every node.
-/

namespace Substrate.Trie

/-- `TrieStream`: the buffer of the node being written. -/
structure TrieStream where
  buffer : List UInt8
  deriving DecidableEq, Repr

/-- `branch_node_bit_mask`: the loop of `Bitmap::encode`, returning its two bytes. -/
def branchNodeBitMask (hasChildren : List Bool) : UInt8 × UInt8 :=
  let bitmap := bitmapOf hasChildren
  ((bitmap % 256).toUInt8, (bitmap / 256).toUInt8)

/-- `chunks(2).map(|ch| ch[0] << 4 | ch[1])` over nibbles of even number: each pair in a byte, the
first high. -/
def fusePairs : List UInt8 → List UInt8
  | a :: b :: rest => (a <<< 4 ||| b) :: fusePairs rest
  | _ => []

/-- `fuse_nibbles_node`: the header of the kind and the number of nibbles, then the first nibble
alone where their number is odd, then the others two to a byte. -/
def fuseNibblesNode (nibbles : List UInt8) (kind : NodeKind) : List UInt8 :=
  let size := nibbles.length
  let iterStart := match kind with
    | .leaf => NodeHeader.sizeAndPrefixIterator size leafPrefixMask 2
    | .branchNoValue => NodeHeader.sizeAndPrefixIterator size branchWithoutMask 2
    | .branchWithValue => NodeHeader.sizeAndPrefixIterator size branchWithMask 2
    | .hashedValueLeaf => NodeHeader.sizeAndPrefixIterator size altHashingLeafPrefixMask 3
    | .hashedValueBranch => NodeHeader.sizeAndPrefixIterator size altHashingBranchWithMask 4
  iterStart ++ (if nibbles.length % 2 = 1 then nibbles.take 1 else []) ++
    fusePairs (nibbles.drop (nibbles.length % 2))

namespace TrieStream

variable (compact : Compact)

def new : TrieStream := ⟨[]⟩

def out (stream : TrieStream) : List UInt8 := stream.buffer

def appendEmptyData (stream : TrieStream) : TrieStream := ⟨stream.buffer ++ [emptyTrie]⟩

def appendLeaf (stream : TrieStream) (key : List UInt8) (value : Value) : TrieStream :=
  let kind := match value with
    | .inline _ => NodeKind.leaf
    | .node _ => NodeKind.hashedValueLeaf
  let buffer := stream.buffer ++ fuseNibblesNode key kind
  match value with
  | .inline value => ⟨buffer ++ compact.encode (value.length % 2 ^ 32) ++ value⟩
  | .node hash => ⟨buffer ++ hash⟩

/-- `begin_branch`; `none` without a partial key, where the source reaches `unreachable!`. -/
def beginBranch (stream : TrieStream) (maybePartial : Option (List UInt8))
    (maybeValue : Option Value) (hasChildren : List Bool) : Option TrieStream :=
  match maybePartial with
  | some partialKey =>
      let kind := match maybeValue with
        | none => NodeKind.branchNoValue
        | some (.inline _) => NodeKind.branchWithValue
        | some (.node _) => NodeKind.hashedValueBranch
      let buffer := stream.buffer ++ fuseNibblesNode partialKey kind
      let bm := branchNodeBitMask hasChildren
      let buffer := buffer ++ [bm.1, bm.2]
      some ⟨match maybeValue with
        | none => buffer
        | some (.inline value) => buffer ++ compact.encode (value.length % 2 ^ 32) ++ value
        | some (.node hash) => buffer ++ hash⟩
  | none => none

/-- `append_substream`: the encoding of a child inline when it is at most 31 bytes, its hash
otherwise, each with its length first. -/
def appendSubstream (hash : List UInt8 → List UInt8) (stream other : TrieStream) : TrieStream :=
  let data := other.out
  if data.length ≤ 31 then ⟨stream.buffer ++ encodeSlice compact data⟩
  else ⟨stream.buffer ++ encodeSlice compact (hash data)⟩

end TrieStream

variable {compact : Compact}

/-! ## Packed partial keys -/

def nibblesOf (bytes : List UInt8) : List UInt8 :=
  bytes.flatMap fun (b : UInt8) => [b >>> 4, b &&& 0x0F]

/-- A partial key packing a key's nibbles: as many bytes as they take, a zero padding nibble first
when their number is odd, then the nibbles. -/
def PacksNibbles (partialKey key : List UInt8) : Prop :=
  PackedPartial partialKey key.length ∧ (nibblesOf partialKey).drop (numberPadding key.length) = key

def substreamHandle (hash : List UInt8 → List UInt8) (data : List UInt8) : NodeHandle :=
  if data.length ≤ 31 then .inline data else .hash (hash data)

theorem forall_nibble {P : UInt8 → Prop} (h : ∀ n < 16, P n.toUInt8) (i : UInt8) (hi : i < 16) :
    P i := by
  have hlt : i.toNat < 16 := by
    rw [UInt8.lt_iff_toNat_lt] at hi
    exact hi
  have hP := h i.toNat hlt
  rwa [toUInt8_toNat] at hP

theorem fuse_high_low (b : UInt8) : (b >>> 4) <<< 4 ||| (b &&& 0x0F) = b :=
  forall_byte (P := fun b => (b >>> 4) <<< 4 ||| (b &&& 0x0F) = b) (by decide +kernel) b

theorem low_of_padLeft (b : UInt8) (h : padLeft b = 0) : b &&& 0x0F = b :=
  forall_byte (P := fun b => padLeft b = 0 → b &&& 0x0F = b) (by decide +kernel) b h

theorem padLeft_of_lt (a : UInt8) (ha : a < 16) : padLeft a = 0 :=
  forall_nibble (P := fun a => padLeft a = 0) (by decide) a ha

theorem low_of_lt (a : UInt8) (ha : a < 16) : a &&& 0x0F = a :=
  forall_nibble (P := fun a => a &&& 0x0F = a) (by decide) a ha

theorem nibbles_fuse (a b : UInt8) (ha : a < 16) (hb : b < 16) :
    (a <<< 4 ||| b) >>> 4 = a ∧ (a <<< 4 ||| b) &&& 0x0F = b :=
  forall_nibble (P := fun a => (a <<< 4 ||| b) >>> 4 = a ∧ (a <<< 4 ||| b) &&& 0x0F = b)
    (fun n hn => forall_nibble
      (P := fun b => (n.toUInt8 <<< 4 ||| b) >>> 4 = n.toUInt8 ∧ (n.toUInt8 <<< 4 ||| b) &&& 0x0F = b)
      (by revert n; decide) b hb) a ha

theorem fusePairs_nibblesOf : ∀ bytes : List UInt8, fusePairs (nibblesOf bytes) = bytes
  | [] => rfl
  | b :: bytes => by
    rw [nibblesOf, List.flatMap_cons, List.cons_append, List.cons_append, List.nil_append,
      fusePairs, fuse_high_low, ← nibblesOf, fusePairs_nibblesOf bytes]

/-- Nibbles of even number, fused two a byte, are the nibbles of those bytes. -/
theorem nibblesOf_fusePairs : ∀ nibbles : List UInt8, nibbles.length % 2 = 0 →
    (∀ x ∈ nibbles, x < 16) → nibblesOf (fusePairs nibbles) = nibbles
  | [], _, _ => rfl
  | [_], hlen, _ => by simp at hlen
  | a :: b :: rest, hlen, hnibbles => by
    have hrest : rest.length % 2 = 0 := by
      simp only [List.length_cons] at hlen
      omega
    obtain ⟨hhigh, hlow⟩ := nibbles_fuse a b (hnibbles a (by simp)) (hnibbles b (by simp))
    rw [fusePairs, nibblesOf, List.flatMap_cons, ← nibblesOf,
      nibblesOf_fusePairs rest hrest fun x hx => hnibbles x (by simp [hx]), hhigh, hlow]
    rfl

theorem length_fusePairs : ∀ nibbles : List UInt8, (fusePairs nibbles).length = nibbles.length / 2
  | [] => rfl
  | [_] => by simp [fusePairs]
  | a :: b :: rest => by
    rw [fusePairs, List.length_cons, length_fusePairs rest, List.length_cons, List.length_cons]
    omega

/-- The bytes `fuse_nibbles_node` writes after the header are the packed key. -/
theorem fuseTail_eq {partialKey key : List UInt8} (hpacks : PacksNibbles partialKey key) :
    (if key.length % 2 = 1 then key.take 1 else []) ++ fusePairs (key.drop (key.length % 2)) =
      partialKey := by
  obtain ⟨⟨hlen, hpad⟩, hnibbles⟩ := hpacks
  simp only [numberPadding, nibblePerByte] at hnibbles hpad hlen
  by_cases hodd : key.length % 2 = 1
  · -- the padding nibble, then the bytes after the first
    rw [if_pos hodd, hodd]
    cases partialKey with
    | nil => simp at hlen; omega
    | cons b bytes =>
      have hlow := low_of_padLeft b (hpad (by omega) b rfl)
      rw [hodd, nibblesOf, List.flatMap_cons, List.cons_append, List.drop_succ_cons,
        List.drop_zero, List.singleton_append, ← nibblesOf, hlow] at hnibbles
      rw [← hnibbles]
      show [b] ++ fusePairs (nibblesOf bytes) = b :: bytes
      rw [fusePairs_nibblesOf]
      rfl
  · have heven : key.length % 2 = 0 := by omega
    rw [if_neg hodd, heven, List.drop_zero, List.nil_append]
    rw [heven, List.drop_zero] at hnibbles
    rw [← hnibbles, fusePairs_nibblesOf]

/-- Every key of nibbles has a packing. -/
theorem exists_packsNibbles (key : List UInt8) (hkey : ∀ x ∈ key, x < 16) :
    ∃ partialKey, PacksNibbles partialKey key := by
  have hrest : (key.drop (key.length % 2)).length % 2 = 0 := by
    rw [List.length_drop]
    omega
  have hrestNibbles : ∀ x ∈ key.drop (key.length % 2), x < 16 :=
    fun x hx => hkey x (List.mem_of_mem_drop hx)
  by_cases hodd : key.length % 2 = 1
  · -- the first nibble alone, with the padding before it
    cases key with
    | nil => simp at hodd
    | cons a rest =>
      have ha : a < 16 := hkey a List.mem_cons_self
      rw [hodd, List.drop_succ_cons, List.drop_zero] at hrest hrestNibbles
      refine ⟨a :: fusePairs rest, ⟨?_, ?_⟩, ?_⟩
      · rw [List.length_cons, length_fusePairs, List.length_cons]
        simp only [nibblePerByte]
        omega
      · rintro - b ⟨⟩
        exact padLeft_of_lt a ha
      · rw [numberPadding, show (a :: rest).length % nibblePerByte = 1 from hodd, nibblesOf,
          List.flatMap_cons, List.cons_append, List.drop_succ_cons, List.drop_zero,
          List.singleton_append, ← nibblesOf, nibblesOf_fusePairs rest hrest hrestNibbles,
          low_of_lt a ha]
  · have heven : key.length % 2 = 0 := by omega
    rw [heven, List.drop_zero] at hrest hrestNibbles
    refine ⟨fusePairs key, ⟨?_, ?_⟩, ?_⟩
    · rw [length_fusePairs]
      simp only [nibblePerByte]
      omega
    · intro hpad
      simp only [numberPadding, nibblePerByte] at hpad
      omega
    · rw [numberPadding, show key.length % nibblePerByte = 0 from heven, List.drop_zero,
        nibblesOf_fusePairs key hrest hrestNibbles]

/-! ## The two encoders -/

section Encoders

variable {key partialKey : List UInt8}

/-- `fuse_nibbles_node` writes the header and the packed key `partial_from_iterator_encode`
writes. -/
theorem fuseNibblesNode_eq (hpacks : PacksNibbles partialKey key) (kind : NodeKind) :
    fuseNibblesNode key kind = partialFromIteratorEncode partialKey key.length kind := by
  simp only [fuseNibblesNode]
  rw [List.append_assoc, fuseTail_eq hpacks]
  cases kind <;> rfl

theorem out_appendLeaf (hpacks : PacksNibbles partialKey key) (value : Value) :
    (TrieStream.new.appendLeaf compact key value).out =
      leafNode compact partialKey key.length value := by
  cases value with
  | inline v =>
    show [] ++ fuseNibblesNode key .leaf ++ compact.encode (v.length % 2 ^ 32) ++ v =
      partialFromIteratorEncode partialKey key.length .leaf ++
        (compact.encode (v.length % 2 ^ 32) ++ v)
    rw [fuseNibblesNode_eq hpacks, List.nil_append, List.append_assoc]
  | node h =>
    show [] ++ fuseNibblesNode key .hashedValueLeaf ++ h =
      partialFromIteratorEncode partialKey key.length .hashedValueLeaf ++ h
    rw [fuseNibblesNode_eq hpacks, List.nil_append]

theorem beginBranch_eq (hpacks : PacksNibbles partialKey key) (value : Option Value)
    (hasChildren : List Bool) :
    TrieStream.new.beginBranch compact (some key) value hasChildren =
      some ⟨partialFromIteratorEncode partialKey key.length (branchKind value) ++
        [(branchNodeBitMask hasChildren).1, (branchNodeBitMask hasChildren).2] ++
        (value.map (encodeValue compact)).getD []⟩ := by
  rcases value with _ | ⟨v | h⟩ <;>
    simp [TrieStream.beginBranch, TrieStream.new, fuseNibblesNode_eq hpacks, branchKind, encodeValue]

end Encoders

theorem buffer_appendSubstream (hash : List UInt8 → List UInt8) (stream : TrieStream)
    (child : List UInt8) :
    (stream.appendSubstream compact hash ⟨child⟩).buffer =
      stream.buffer ++ encodeSlice compact (substreamHandle hash child).bytes := by
  by_cases hshort : child.length ≤ 31 <;>
    simp [TrieStream.appendSubstream, TrieStream.out, substreamHandle, hshort, NodeHandle.bytes]

/-- The substreams appended one after the other. By induction on them, from any buffer. -/
theorem buffer_foldl_appendSubstream (hash : List UInt8 → List UInt8) :
    ∀ (children : List (List UInt8)) (stream : TrieStream),
      (children.foldl (fun stream child => stream.appendSubstream compact hash ⟨child⟩)
          stream).buffer =
        stream.buffer ++
          (children.map fun child => encodeSlice compact (substreamHandle hash child).bytes).flatten
  | [], stream => by rw [List.foldl_nil, List.map_nil, List.flatten_nil, List.append_nil]
  | child :: children, stream => by
    rw [List.foldl_cons, buffer_foldl_appendSubstream hash children, buffer_appendSubstream,
      List.map_cons, List.flatten_cons, List.append_assoc]

/-- The children present, in order, are what the encoder writes for all sixteen. -/
theorem flatten_filterMap (hash : List UInt8 → List UInt8) :
    ∀ children : List (Option (List UInt8)),
      ((children.filterMap id).map fun child =>
          encodeSlice compact (substreamHandle hash child).bytes).flatten =
        (children.map fun child => encodeHandle compact (child.map (substreamHandle hash))).flatten
  | [] => rfl
  | none :: children => by
    show ((children.filterMap id).map _).flatten = _
    rw [flatten_filterMap hash children, List.map_cons, List.flatten_cons]
    rfl
  | some child :: children => by
    show ((child :: children.filterMap id).map _).flatten = _
    rw [List.map_cons, List.flatten_cons, flatten_filterMap hash children, List.map_cons,
      List.flatten_cons]
    rfl

/-- With hashes of 31 bytes or more, each child's handle is a child reference. -/
theorem exists_substreamRefs {hashLength : Nat} (hash : List UInt8 → List UInt8)
    (hlong : 31 ≤ hashLength) (hhash : ∀ data, (hash data).length = hashLength) :
    ∀ children : List (Option (List UInt8)), ∃ refs : List (Option (ChildReference hashLength)),
      refs.map (Option.map ChildReference.toHandle) = children.map (Option.map (substreamHandle hash))
  | [] => ⟨[], rfl⟩
  | none :: children => by
    obtain ⟨refs, hrefs⟩ := exists_substreamRefs hash hlong hhash children
    exact ⟨none :: refs, by rw [List.map_cons, List.map_cons, hrefs]; rfl⟩
  | some child :: children => by
    obtain ⟨refs, hrefs⟩ := exists_substreamRefs hash hlong hhash children
    -- inline when at most 31 bytes, hashed otherwise
    by_cases hshort : child.length ≤ 31
    · refine ⟨some (.inline child (by omega)) :: refs, ?_⟩
      rw [List.map_cons, List.map_cons, hrefs, Option.map_some, Option.map_some, substreamHandle,
        if_pos hshort]
      rfl
    · refine ⟨some (.hash (hash child) (hhash child)) :: refs, ?_⟩
      rw [List.map_cons, List.map_cons, hrefs, Option.map_some, Option.map_some, substreamHandle,
        if_neg hshort]
      rfl

/-- `TrieStream` and `NodeCodec` write the same bytes for every leaf and branch, with the children
inline up to 31 bytes and hashed beyond. -/
theorem trieStream_agrees_with_nodeCodec (compact : Compact) :
    (∀ key : List UInt8, (∀ x ∈ key, x < 16) → ∃ partialKey, PacksNibbles partialKey key) ∧
    (∀ (key partialKey : List UInt8) (value : Value), PacksNibbles partialKey key →
      (TrieStream.new.appendLeaf compact key value).out =
        leafNode compact partialKey key.length value) ∧
    (∀ (hashLength : Nat) (hash : List UInt8 → List UInt8), 31 ≤ hashLength →
      (∀ data, (hash data).length = hashLength) →
      ∀ children : List (Option (List UInt8)), ∃ refs : List (Option (ChildReference hashLength)),
        refs.map (Option.map ChildReference.toHandle) =
          children.map (Option.map (substreamHandle hash))) ∧
    (∀ (hashLength : Nat) (hash : List UInt8 → List UInt8) (key partialKey : List UInt8)
      (value : Option Value) (children : List (Option (List UInt8)))
      (refs : List (Option (ChildReference hashLength))), PacksNibbles partialKey key →
      refs.map (Option.map ChildReference.toHandle) =
        children.map (Option.map (substreamHandle hash)) →
      (TrieStream.new.beginBranch compact (some key) value (children.map Option.isSome)).map
          (fun stream => ((children.filterMap id).foldl
            (fun stream child => stream.appendSubstream compact hash ⟨child⟩) stream).out) =
        some (branchNodeNibbled compact partialKey key.length refs value)) := by
  refine ⟨exists_packsNibbles, fun _ _ value hpacks => out_appendLeaf hpacks value,
    fun _ hash hlong hhash => exists_substreamRefs hash hlong hhash, ?_⟩
  intro hashLength hash key partialKey value children refs hpacks hrefs
  -- the presence bits and the bytes of the children, from the references
  have hbits : refs.map Option.isSome = children.map Option.isSome :=
    calc refs.map Option.isSome
        = (refs.map (Option.map ChildReference.toHandle)).map Option.isSome := by
          rw [List.map_map]
          exact List.map_congr_left fun _ _ => Option.isSome_map.symm
      _ = (children.map (Option.map (substreamHandle hash))).map Option.isSome := by rw [hrefs]
      _ = children.map Option.isSome := by
          rw [List.map_map]
          exact List.map_congr_left fun _ _ => Option.isSome_map
  have hbytes : (refs.map fun ref => encodeHandle compact (ref.map ChildReference.toHandle)) =
      children.map fun child => encodeHandle compact (child.map (substreamHandle hash)) := by
    have h := congrArg (List.map (encodeHandle compact)) hrefs
    simp only [List.map_map] at h
    exact h
  rw [beginBranch_eq hpacks, Option.map_some, branchNodeNibbled_eq, hbits, hbytes]
  congr 1
  rw [TrieStream.out, buffer_foldl_appendSubstream, flatten_filterMap]
  rfl

end Substrate.Trie
