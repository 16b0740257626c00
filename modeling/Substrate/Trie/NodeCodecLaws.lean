import Mathlib
import Substrate.Trie.NodeCodec

/-! # The laws of the node codec

`decode_plan` reads back every node `leaf_node` and `branch_node_nibbled` write, and what it
accepts whole is what they write for its node, if that can be encoded. An oversized inline child
is accepted, but no `ChildReference` holds it.
-/

namespace Substrate.Trie

open Decoder

variable {compact : Compact}

/-- A partial key of `numberNibble` nibbles packed two a byte: as many bytes as that takes, and a
zero padding nibble first where the count is odd. -/
def PackedPartial (partialKey : List UInt8) (numberNibble : Nat) : Prop :=
  partialKey.length = (numberNibble + (nibblePerByte - 1)) / nibblePerByte ∧
    (numberPadding numberNibble ≠ 0 → ∀ b ∈ partialKey.head?, padLeft b = 0)

/-- A value the codec carries: an inline value shorter than `2^32`, or a hash of `H::LENGTH`
bytes. -/
def Value.Valid (hashLength : Nat) : Value → Prop
  | .inline value => value.length < 2 ^ 32
  | .node hash => hash.length = hashLength

/-- A child the codec reads back as it is: a hash, or an encoding shorter than a hash. -/
def ChildReference.Valid {hashLength : Nat} : ChildReference hashLength → Prop
  | .hash _ _ => True
  | .inline data _ => data.length < hashLength

theorem map_getD_range {α : Type} (l : List α) (d : α) :
    (List.range l.length).map (fun i => l.getD i d) = l := by
  apply List.ext_getElem (by simp)
  intro i h₁ h₂
  simp [List.getD_eq_getElem?_getD, List.getElem?_eq_getElem h₂]

theorem map_eq_map_of_forall₂ {α β γ : Type} {f : α → γ} {g : β → γ} :
    ∀ {xs : List α} {ys : List β}, List.Forall₂ (fun x y => g y = f x) xs ys → ys.map g = xs.map f
  | _, _, .nil => rfl
  | _, _, .cons hxy hrest => by rw [List.map_cons, List.map_cons, hxy, map_eq_map_of_forall₂ hrest]

theorem forall_mem_of_forall₂ {α β : Type} {R : α → β → Prop} {S : β → Prop}
    (hRS : ∀ x y, R x y → S y) :
    ∀ {xs : List α} {ys : List β}, List.Forall₂ R xs ys → ∀ y ∈ ys, S y
  | _, _, .nil => by simp
  | _, _, .cons hxy hrest => by
    rintro y (_ | ⟨_, hy⟩)
    · exact hRS _ _ hxy
    · exact forall_mem_of_forall₂ hRS hrest y hy

/-! ## Reading a node back -/

section Reads

variable {hashLength : Nat} (P : List UInt8 → Prop)

theorem reads_decodeValue (value : Value) (hvalid : value.Valid hashLength) (o : Nat) :
    Reads P (decodeValue compact hashLength value.isNode) o (encodeValue compact value)
      fun data plan => plan.build data = value := by
  cases value with
  | node hash =>
    have htake := ByteSliceInput.reads_take P o hash
    rw [show hash.length = hashLength from hvalid] at htake
    rw [Value.isNode, decodeValue, if_pos rfl, encodeValue]
    refine (htake.bind fun range => ((readsAt_pure _ (ValuePlan.node range)).reads _).imp ?_).congr
      (List.append_nil _)
    rintro data _ ⟨_, _, hslice⟩ rfl
    rw [ValuePlan.build, hslice]
  | inline value =>
    have hlen : value.length < 2 ^ 32 := hvalid
    rw [Value.isNode, decodeValue, if_neg Bool.false_ne_true, encodeValue, Nat.mod_eq_of_lt hlen]
    refine ((compact.readsAt o hlen).reads P).bind_eq ?_
    refine ((ByteSliceInput.reads_take _ _ value).bind fun range =>
      ((readsAt_pure _ (ValuePlan.inline range)).reads _).imp ?_).congr (List.append_nil _)
    rintro data _ ⟨_, _, hslice⟩ rfl
    rw [ValuePlan.build, hslice]

/-- The bytes of a child are read back behind their compact length, as a handle of the kind
their length tells. -/
theorem reads_childBytes (bytes : List UInt8) (hlen : bytes.length < 2 ^ 32)
    {handle : Nat × Nat → NodeHandlePlan} {target : NodeHandle}
    (hkind : (if bytes.length = hashLength then NodeHandlePlan.hash else NodeHandlePlan.inline) =
      handle)
    (hbuild : ∀ data range, slice data range = bytes → (handle range).build data = target)
    (o : Nat) :
    Reads P (do
      let count ← compact.decode
      let range ← ByteSliceInput.take count
      return some (if count = hashLength then NodeHandlePlan.hash range
        else NodeHandlePlan.inline range)) o (encodeSlice compact bytes) fun data plan =>
      plan.map (NodeHandlePlan.build data) = some target := by
  -- the length, then the bytes
  refine ((compact.readsAt o hlen).reads P).bind_eq ?_
  refine ((ByteSliceInput.reads_take _ _ bytes).bind fun range =>
    ((readsAt_pure _ _).reads _).imp ?_).congr (List.append_nil _)
  rintro data _ ⟨_, _, hslice⟩ rfl
  rw [Option.map_some, ← hbuild data range hslice, ← hkind]
  split <;> rfl

/-- A child is read back where the bitmap has its bit: a hash as a hash, and an inline child,
shorter than a hash, inline. -/
theorem reads_decodeChild (bitmap : UInt16) (i : Nat) (child : Option (ChildReference hashLength))
    (hbit : Bitmap.valueAt bitmap i = child.isSome) (hvalid : ∀ r ∈ child, r.Valid)
    (hhash : hashLength < 2 ^ 32) (o : Nat) :
    Reads P (decodeChild compact hashLength bitmap i) o (encodeChild compact child).1
      fun data plan =>
        plan.map (NodeHandlePlan.build data) = child.map ChildReference.toHandle := by
  cases child with
  | none =>
    rw [decodeChild, if_neg (by simp [hbit])]
    exact ((readsAt_pure o none).reads P).imp fun _ _ _ hplan => by rw [hplan]; rfl
  | some r =>
    rw [decodeChild, if_pos (by rw [hbit]; rfl)]
    cases r with
    | hash h hlen =>
      exact reads_childBytes P h (by omega) (if_pos hlen)
        (fun data range hslice => by rw [NodeHandlePlan.build, hslice]; rfl) o
    | inline data hle =>
      have hlt : data.length < hashLength := hvalid _ rfl
      exact reads_childBytes P data (by omega) (if_neg (Nat.ne_of_lt hlt))
        (fun d range hslice => by rw [NodeHandlePlan.build, hslice]; rfl) o

/-- The loop over the sixteen children reads each back, where the bitmap has their bits. -/
theorem reads_decodeChildren (bitmap : UInt16) (children : List (Option (ChildReference hashLength)))
    (hlen : children.length = nibbleLength)
    (hbits : ∀ i < nibbleLength, Bitmap.valueAt bitmap i = (children.getD i none).isSome)
    (hvalid : ∀ child ∈ children, ∀ r ∈ child, r.Valid) (hhash : hashLength < 2 ^ 32) (o : Nat) :
    Reads P ((List.range nibbleLength).mapM (decodeChild compact hashLength bitmap)) o
      (children.map fun child => (encodeChild compact child).1).flatten fun data plans =>
        plans.map (Option.map (NodeHandlePlan.build data)) =
          children.map (Option.map ChildReference.toHandle) := by
  have hmem : ∀ i < nibbleLength, children.getD i none ∈ children := by
    intro i hi
    rw [List.getD_eq_getElem _ _ (by omega)]
    exact List.getElem_mem _
  have hloop : Reads P ((List.range nibbleLength).mapM (decodeChild compact hashLength bitmap)) o
      ((List.range nibbleLength).flatMap fun i => (encodeChild compact (children.getD i none)).1)
      fun data plans => List.Forall₂ (fun i plan => plan.map (NodeHandlePlan.build data) =
        (children.getD i none).map ChildReference.toHandle) (List.range nibbleLength) plans :=
    reads_mapM _ (fun i hi o => reads_decodeChild P bitmap i _ (hbits i (List.mem_range.mp hi))
      (hvalid _ (hmem i (List.mem_range.mp hi))) hhash o) o
  -- the loop over the indices is the map over the children
  have hrange : ∀ {β : Type} (f : Option (ChildReference hashLength) → β),
      (List.range nibbleLength).map (fun i => f (children.getD i none)) = children.map f := by
    intro β f
    rw [← map_getD_range children none, List.map_map, hlen]
    rfl
  refine (hloop.imp fun data plans _ hplans => ?_).congr ?_
  · rw [map_eq_map_of_forall₂ hplans, hrange (Option.map ChildReference.toHandle)]
  · rw [List.flatMap_def, hrange fun child => (encodeChild compact child).1]

theorem reads_optionalValue (containsHash branchHasValue : Bool) (value : Option Value)
    (hhas : branchHasValue = value.isSome) (hkind : ∀ v ∈ value, v.isNode = containsHash)
    (hvalid : ∀ v ∈ value, v.Valid hashLength) (o : Nat) :
    Reads P (if branchHasValue then do
        let value ← decodeValue compact hashLength containsHash
        pure (some value)
      else pure none) o ((value.map (encodeValue compact)).getD []) fun data plan =>
        plan.map (ValuePlan.build data) = value := by
  cases value with
  | none =>
    rw [hhas, if_neg (by simp)]
    exact ((readsAt_pure o none).reads P).imp fun _ _ _ hplan => by rw [hplan]; rfl
  | some v =>
    rw [hhas, if_pos Option.isSome_some, ← hkind v rfl]
    refine ((reads_decodeValue P v (hvalid v rfl) o).bind fun plan =>
      ((readsAt_pure _ (some plan)).reads _).imp ?_).congr (List.append_nil _)
    rintro data _ ⟨_, hplan⟩ rfl
    rw [Option.map_some, hplan]

theorem reads_decodeLeaf (partialKey : List UInt8) (nibbleCount : Nat) (value : Value)
    (hpartialKey : partialKey.length = (nibbleCount + (nibblePerByte - 1)) / nibblePerByte)
    (hvalid : value.Valid hashLength) (o : Nat) :
    Reads P (decodeLeaf compact hashLength value.isNode nibbleCount) o
      (partialKey ++ encodeValue compact value)
      fun data plan => plan.build data = .leaf ⟨partialKey, numberPadding nibbleCount⟩ value := by
  have htake := ByteSliceInput.reads_take P o partialKey
  rw [hpartialKey] at htake
  rw [decodeLeaf]
  refine htake.bind fun range => ?_
  refine ((reads_decodeValue _ value hvalid _).bind fun plan =>
    ((readsAt_pure _ (NodePlan.leaf ⟨range, numberPadding nibbleCount⟩ plan)).reads _).imp ?_).congr
    (List.append_nil _)
  rintro data _ ⟨⟨_, _, hslice⟩, hvalue⟩ rfl
  rw [NodePlan.build, NibbleSlicePlan.build, hslice, hvalue]

/-- The bitmap of the children present is read back, and the children after it. -/
theorem reads_decodeBranch (containsHash branchHasValue : Bool) (partialKey : List UInt8)
    (nibbleCount : Nat) (children : List (Option (ChildReference hashLength)))
    (value : Option Value)
    (hpartialKey : partialKey.length = (nibbleCount + (nibblePerByte - 1)) / nibblePerByte)
    (hlen : children.length = nibbleLength) (hpresent : ∃ child ∈ children, child.isSome)
    (hchildren : ∀ child ∈ children, ∀ r ∈ child, r.Valid)
    (hhas : branchHasValue = value.isSome) (hkind : ∀ v ∈ value, v.isNode = containsHash)
    (hvalue : ∀ v ∈ value, v.Valid hashLength) (hhash : hashLength < 2 ^ 32) (o : Nat) :
    Reads P (decodeBranch compact hashLength containsHash branchHasValue nibbleCount) o
      (partialKey ++ [(Bitmap.encode (children.map Option.isSome)).1,
          (Bitmap.encode (children.map Option.isSome)).2] ++
        (value.map (encodeValue compact)).getD [] ++
        (children.map fun child => (encodeChild compact child).1).flatten)
      fun data plan => plan.build data = .nibbledBranch ⟨partialKey, numberPadding nibbleCount⟩
        (children.map (Option.map ChildReference.toHandle)) value := by
  -- the bitmap `Bitmap::encode` writes for the children
  have hbits : ∀ i < nibbleLength, Bitmap.valueAt (bitmapOf (children.map Option.isSome)) i =
      (children.getD i none).isSome := by
    intro i hi
    rw [valueAt_bitmapOf _ hi, ← List.getD_map children none Option.isSome]
    rfl
  have hnonzero : bitmapOf (children.map Option.isSome) ≠ 0 := by
    obtain ⟨child, hmem, hsome⟩ := hpresent
    obtain ⟨i, hi, rfl⟩ := List.getElem_of_mem hmem
    have h16 : children.length = 16 := hlen
    refine bitmapOf_ne_zero (i := i) (by omega) ?_
    rw [List.getD_eq_getElem _ _ (by rw [List.length_map]; exact hi), List.getElem_map]
    exact hsome
  have htake := ByteSliceInput.reads_take P o partialKey
  rw [hpartialKey] at htake
  rw [decodeBranch, show ∀ bitmap valueBytes childBytes : List UInt8,
    partialKey ++ bitmap ++ valueBytes ++ childBytes =
      partialKey ++ (bitmap ++ ([] ++ ([] ++ (valueBytes ++ (childBytes ++ []))))) by simp]
  refine htake.bind fun partialRange => ?_
  refine (ByteSliceInput.reads_take _ _ _).bind fun bitmapRange => ?_
  refine (reads_get _ _).bind fun input => ?_
  refine (reads_lift (v := bitmapOf (children.map Option.isSome)) ?_ _).bind_eq ?_
  · -- the two bytes of the range are those `Bitmap::encode` wrote
    rintro data ⟨⟨_, _, hslice⟩, rfl⟩
    rw [hslice, Bitmap.decode, Bitmap.encode, leValue_encode, if_neg hnonzero]
  refine (reads_optionalValue _ containsHash branchHasValue value hhas hkind hvalue _).bind
    fun valuePlan => ?_
  refine (reads_decodeChildren _ _ children hlen hbits hchildren hhash _).bind fun plans =>
    ((readsAt_pure _ _).reads _).imp ?_
  rintro data _ ⟨⟨⟨⟨⟨_, _, hslice⟩, _⟩, _⟩, hvaluePlan⟩, hplans⟩ rfl
  rw [NodePlan.build, NibbleSlicePlan.build, hslice, hvaluePlan, hplans]

end Reads

/-- A packed partial key passes the padding check. -/
theorem checkPadding_of_packed {partialKey rest data : List UInt8} {nibbleCount o : Nat}
    (hpacked : PackedPartial partialKey nibbleCount) (hdata : data.drop o = partialKey ++ rest) :
    checkPadding nibbleCount ⟨data, o⟩ = some (.ok ()) := by
  obtain ⟨hlen, hpad⟩ := hpacked
  rw [checkPadding]
  split
  · next hodd =>
      cases partialKey with
      | nil =>
        -- an odd count takes a byte
        simp only [List.length_nil, nibblePerByte] at hlen hodd
        omega
      | cons b bs =>
        have hb : data[o]? = some b := by
          rw [← Nat.add_zero o, ← List.getElem?_drop, hdata]
          rfl
        dsimp only
        rw [hb]
        simp [hpad hodd b rfl]
  · rfl

/-- After a header, `decode_plan` runs the arm of its kind. -/
theorem decodePlan_encode_append (hashLength : Nat) (header : NodeHeader) (rest : List UInt8) :
    decodePlan compact hashLength (header.encode ++ rest) =
      decodeBody compact hashLength header ⟨header.encode ++ rest, header.encode.length⟩ := by
  have hdecode := NodeHeader.readsAt_decode 0 header (header.encode ++ rest) rest (Nat.zero_le _)
    List.drop_zero
  rw [Nat.zero_add] at hdecode
  rw [decodePlan, hdecode]

/-- A node whose arm reads the rest of it is decoded, consuming all of it. -/
theorem decodePlan_of_reads {hashLength nibbleCount : Nat} {header : NodeHeader}
    {partialKey rest : List UInt8} {body : Decoder UInt8 Error NodePlan}
    {Q : List UInt8 → NodePlan → Prop}
    (hbody : ∀ input, decodeBody compact hashLength header input =
      (checkPadding nibbleCount input).map fun checked => checked.bind fun _ => body input)
    (hpacked : PackedPartial partialKey nibbleCount)
    (hreads : Reads (fun _ => True) body header.encode.length (partialKey ++ rest) Q) :
    ∃ plan, decodePlan compact hashLength (header.encode ++ (partialKey ++ rest)) =
        some (.ok (plan, ⟨header.encode ++ (partialKey ++ rest),
          (header.encode ++ (partialKey ++ rest)).length⟩)) ∧
      Q (header.encode ++ (partialKey ++ rest)) plan := by
  have hdata : (header.encode ++ (partialKey ++ rest)).drop header.encode.length =
      partialKey ++ rest := List.drop_left
  obtain ⟨plan, hplan, hQ⟩ := hreads (header.encode ++ (partialKey ++ rest)) []
    (by rw [List.length_append]; exact Nat.le_add_right _ _)
    (by rw [hdata, List.append_nil]) trivial
  refine ⟨plan, ?_, hQ⟩
  rw [decodePlan_encode_append, hbody, checkPadding_of_packed hpacked hdata, Option.map_some]
  exact congrArg some (hplan.trans (by simp only [List.length_append]))

/-- `decode_plan` reads back every leaf `leaf_node` writes. -/
theorem decodePlan_leafNode (hashLength : Nat) (partialKey : List UInt8) (numberNibble : Nat)
    (value : Value) (hpacked : PackedPartial partialKey numberNibble)
    (hvalid : value.Valid hashLength) :
    ∃ plan, decodePlan compact hashLength (leafNode compact partialKey numberNibble value) =
        some (.ok (plan, ⟨leafNode compact partialKey numberNibble value,
          (leafNode compact partialKey numberNibble value).length⟩)) ∧
      plan.build (leafNode compact partialKey numberNibble value) =
        .leaf ⟨partialKey, numberPadding numberNibble⟩ value := by
  -- the header of the value's kind, and its arm
  obtain ⟨header, hencode, hbody⟩ : ∃ header : NodeHeader,
      leafNode compact partialKey numberNibble value =
        header.encode ++ (partialKey ++ encodeValue compact value) ∧
      ∀ input, decodeBody compact hashLength header input =
        (checkPadding numberNibble input).map fun checked =>
          checked.bind fun _ => decodeLeaf compact hashLength value.isNode numberNibble input := by
    cases value with
    | inline v =>
      exact ⟨.leaf numberNibble, List.append_assoc _ _ _, fun _ => rfl⟩
    | node h => exact ⟨.hashedValueLeaf numberNibble, List.append_assoc _ _ _, fun _ => rfl⟩
  rw [hencode]
  exact decodePlan_of_reads hbody hpacked
    (reads_decodeLeaf _ partialKey numberNibble value hpacked.1 hvalid _)

example : decodePlan Compact.fixed 32 (leafNode Compact.fixed [0x12] 2 (.inline [7])) =
    some (.ok (.leaf ⟨(1, 2), 0⟩ (.inline (6, 7)), ⟨[0x42, 0x12, 1, 0, 0, 0, 0x07], 7⟩)) := by
  rfl

/-- `decode_plan` reads back every branch `branch_node_nibbled` writes, with children that are
hashes or inline and shorter than a hash. -/
theorem decodePlan_branchNodeNibbled {hashLength : Nat} (partialKey : List UInt8)
    (numberNibble : Nat) (children : List (Option (ChildReference hashLength)))
    (value : Option Value) (hhash : hashLength < 2 ^ 32)
    (hpacked : PackedPartial partialKey numberNibble) (hlen : children.length = nibbleLength)
    (hpresent : ∃ child ∈ children, child.isSome)
    (hchildren : ∀ child ∈ children, ∀ r ∈ child, r.Valid)
    (hvalue : ∀ v ∈ value, v.Valid hashLength) :
    ∃ plan, decodePlan compact hashLength
        (branchNodeNibbled compact partialKey numberNibble children value) =
        some (.ok (plan, ⟨branchNodeNibbled compact partialKey numberNibble children value,
          (branchNodeNibbled compact partialKey numberNibble children value).length⟩)) ∧
      plan.build (branchNodeNibbled compact partialKey numberNibble children value) =
        .nibbledBranch ⟨partialKey, numberPadding numberNibble⟩
          (children.map (Option.map ChildReference.toHandle)) value := by
  -- the header of the value's kind, and its arm
  obtain ⟨header, containsHash, hencode, hkind, hbody⟩ : ∃ (header : NodeHeader) (containsHash : Bool),
      partialFromIteratorEncode partialKey numberNibble (branchKind value) =
        header.encode ++ partialKey ∧
      (∀ v ∈ value, v.isNode = containsHash) ∧
      ∀ input, decodeBody compact hashLength header input =
        (checkPadding numberNibble input).map fun checked => checked.bind fun _ =>
          decodeBranch compact hashLength containsHash value.isSome numberNibble input := by
    rcases value with _ | ⟨v⟩ | ⟨v⟩
    · exact ⟨.branch false numberNibble, false, rfl, by simp, fun _ => rfl⟩
    · exact ⟨.branch true numberNibble, false, rfl, by simp [Value.isNode], fun _ => rfl⟩
    · exact ⟨.hashedValueBranch numberNibble, true, rfl, by simp [Value.isNode], fun _ => rfl⟩
  have hreads := @reads_decodeBranch compact hashLength (fun _ => True) containsHash value.isSome
    partialKey numberNibble children value hpacked.1 hlen hpresent hchildren rfl hkind hvalue hhash
    header.encode.length
  have hchildBytes : (children.map fun child => (encodeChild compact child).1) =
      children.map fun child => encodeHandle compact (child.map ChildReference.toHandle) :=
    List.map_congr_left fun child _ => fst_encodeChild child
  rw [branchNodeNibbled_eq, hencode, ← hchildBytes,
    show ∀ a b c d e : List UInt8, a ++ b ++ c ++ d ++ e = a ++ (b ++ (c ++ d ++ e)) by simp]
  exact decodePlan_of_reads hbody hpacked
    (hreads.congr (by simp only [List.append_assoc]))

/-! ## Accepting nothing else -/

section Spans

variable (compact)

/-- A range that does not end before it starts, and ends within `n`. -/
def RangeWithin (n : Nat) (range : Nat × Nat) : Prop := range.1 ≤ range.2 ∧ range.2 ≤ n

def NodeHandle.HashFits (hashLength : Nat) : NodeHandle → Prop
  | .hash h => h.length = hashLength
  | .inline _ => True

theorem spans_decodeValue (hashLength : Nat) (containsHash : Bool) :
    Spans (decodeValue compact hashLength containsHash) fun c plan w =>
      (plan.build c.data).isNode = containsHash ∧ (plan.build c.data).Valid hashLength ∧
        w = encodeValue compact (plan.build c.data) ∧ RangeWithin c.data.length plan.range := by
  rw [decodeValue]
  split
  · next hcontains =>
      refine ((ByteSliceInput.spans_take_within hashLength).bind fun range =>
        spans_pure (ValuePlan.node range)).imp ?_
      rintro c _ _ ⟨range, w, _, rfl, ⟨hrange, hlen, hend, hslice⟩, rfl, rfl⟩
      refine ⟨hcontains.symm, ?_, ?_, ?_⟩
      · show (slice c.data range).length = hashLength
        rw [hslice, hlen]
      · show w ++ [] = slice c.data range
        rw [hslice, List.append_nil]
      · exact ⟨by rw [hrange]; exact Nat.le_add_right _ _, hend⟩
  · next hcontains =>
      refine (compact.spans.bind fun count => (ByteSliceInput.spans_take_within count).bind
        fun range => spans_pure (ValuePlan.inline range)).imp ?_
      rintro c _ _ ⟨count, w₁, _, rfl, ⟨hcount, rfl⟩, range, w₂, _, rfl,
        ⟨hrange, hlen, hend, hslice⟩, rfl, rfl⟩
      have hslice' : slice c.data range = w₂ := hslice
      refine ⟨(Bool.eq_false_iff.mpr hcontains).symm, ?_, ?_, ?_⟩
      · show (slice c.data range).length < 2 ^ 32
        rw [hslice', hlen]
        exact hcount
      · show compact.encode count ++ (w₂ ++ []) =
          compact.encode ((slice c.data range).length % 2 ^ 32) ++ slice c.data range
        rw [hslice', hlen, Nat.mod_eq_of_lt hcount, List.append_nil]
      · exact ⟨by rw [hrange]; exact Nat.le_add_right _ _, hend⟩

/-- A child is accepted only where the bitmap has its bit, and a hash only of the length of one. -/
theorem spans_decodeChild (hashLength : Nat) (bitmap : UInt16) (i : Nat) :
    Spans (decodeChild compact hashLength bitmap i) fun c plan w =>
      (plan.isSome = Bitmap.valueAt bitmap i ∧
        ∀ p ∈ plan, (p.build c.data).HashFits hashLength ∧ RangeWithin c.data.length p.range) ∧
      w = encodeHandle compact (plan.map (NodeHandlePlan.build c.data)) := by
  rw [decodeChild]
  split
  · next hbit =>
      refine (compact.spans.bind fun count => (ByteSliceInput.spans_take_within count).bind
        fun range => spans_pure (some (if count = hashLength then NodeHandlePlan.hash range
          else NodeHandlePlan.inline range))).imp ?_
      rintro c _ _ ⟨count, w₁, _, rfl, ⟨hcount, rfl⟩, range, w₂, _, rfl,
        ⟨hrange, hlen, hend, hslice⟩, rfl, rfl⟩
      have hslice' : slice c.data range = w₂ := hslice
      have hwithin : RangeWithin c.data.length range :=
        ⟨by rw [hrange]; exact Nat.le_add_right _ _, hend⟩
      -- the kind follows the length
      by_cases hkind : count = hashLength
      · rw [if_pos hkind]
        refine ⟨⟨hbit.symm, ?_⟩, ?_⟩
        · rintro p ⟨⟩
          refine ⟨?_, hwithin⟩
          show (slice c.data range).length = hashLength
          rw [hslice', hlen, hkind]
        · show compact.encode count ++ (w₂ ++ []) = encodeSlice compact (slice c.data range)
          rw [hslice', encodeSlice, hlen, List.append_nil]
      · rw [if_neg hkind]
        refine ⟨⟨hbit.symm, ?_⟩, ?_⟩
        · rintro p ⟨⟩
          exact ⟨trivial, hwithin⟩
        · show compact.encode count ++ (w₂ ++ []) = encodeSlice compact (slice c.data range)
          rw [hslice', encodeSlice, hlen, List.append_nil]
  · next hbit =>
      refine (spans_pure none).imp ?_
      rintro c _ _ ⟨rfl, rfl⟩
      exact ⟨⟨by simpa using hbit, by simp⟩, rfl⟩

/-- The loop over the children accepts a child exactly where the bitmap has its bit. -/
theorem spans_decodeChildren (hashLength : Nat) (bitmap : UInt16) :
    Spans ((List.range nibbleLength).mapM (decodeChild compact hashLength bitmap)) fun c plans w =>
      plans.map Option.isSome = (List.range nibbleLength).map (Bitmap.valueAt bitmap) ∧
      (∀ p ∈ plans, ∀ q ∈ p,
        (q.build c.data).HashFits hashLength ∧ RangeWithin c.data.length q.range) ∧
      w = ((plans.map (Option.map (NodeHandlePlan.build c.data))).map
        (encodeHandle compact)).flatten := by
  refine (spans_mapM (Q := fun i data p => p.isSome = Bitmap.valueAt bitmap i ∧
      ∀ q ∈ p, (q.build data).HashFits hashLength ∧ RangeWithin data.length q.range)
    (g := fun data p => encodeHandle compact (p.map (NodeHandlePlan.build data)))
    (fun i => spans_decodeChild compact hashLength bitmap i) (List.range nibbleLength)).imp ?_
  rintro c plans _ ⟨hplans, rfl⟩
  refine ⟨map_eq_map_of_forall₂ (hplans.imp fun _ _ h => h.1),
    forall_mem_of_forall₂ (fun _ _ h => h.2) hplans, ?_⟩
  rw [List.map_map]
  rfl

theorem spans_optionalValue (hashLength : Nat) (containsHash branchHasValue : Bool) :
    Spans (if branchHasValue then do
        let value ← decodeValue compact hashLength containsHash
        pure (some value)
      else pure none) fun c plan w =>
      (plan.map (ValuePlan.build c.data)).isSome = branchHasValue ∧
      (∀ v ∈ plan.map (ValuePlan.build c.data), v.isNode = containsHash) ∧
      (∀ p ∈ plan, RangeWithin c.data.length p.range) ∧
      w = ((plan.map (ValuePlan.build c.data)).map (encodeValue compact)).getD [] := by
  split
  · next hhas =>
      refine ((spans_decodeValue compact hashLength containsHash).bind fun plan =>
        spans_pure (some plan)).imp ?_
      rintro c _ _ ⟨plan, w, _, rfl, ⟨hkind, _, rfl, hwithin⟩, rfl, rfl⟩
      refine ⟨hhas.symm, ?_, ?_, ?_⟩
      · rintro v ⟨⟩
        exact hkind
      · rintro p ⟨⟩
        exact hwithin
      · exact List.append_nil _
  · next hhas =>
      refine (spans_pure none).imp ?_
      rintro c _ _ ⟨rfl, rfl⟩
      exact ⟨by simpa using hhas, by simp, by simp, rfl⟩

theorem spans_decodeLeaf (hashLength : Nat) (containsHash : Bool) (nibbleCount : Nat) :
    Spans (decodeLeaf compact hashLength containsHash nibbleCount) fun c plan w =>
      ∃ partialKey value, plan.build c.data = .leaf ⟨partialKey, numberPadding nibbleCount⟩ value ∧
        w = partialKey ++ encodeValue compact value ∧
        partialKey.length = (nibbleCount + (nibblePerByte - 1)) / nibblePerByte ∧
        value.isNode = containsHash ∧ ∀ r ∈ plan.ranges, RangeWithin c.data.length r := by
  rw [decodeLeaf]
  refine ((ByteSliceInput.spans_take_within _).bind fun range =>
    (spans_decodeValue compact hashLength containsHash).bind fun plan =>
      spans_pure (NodePlan.leaf ⟨range, numberPadding nibbleCount⟩ plan)).imp ?_
  rintro c _ _ ⟨range, w₁, _, rfl, ⟨hrange, hlen, hend, hslice⟩, plan, w₂, _, rfl,
    ⟨hkind, _, rfl, hwithin⟩, rfl, rfl⟩
  refine ⟨w₁, plan.build c.data, ?_, by rw [List.append_nil]; rfl, hlen, hkind, ?_⟩
  · rw [NodePlan.build, NibbleSlicePlan.build, hslice]
  · rintro r (_ | ⟨_, _ | ⟨_, ⟨⟩⟩⟩)
    · exact ⟨by rw [hrange]; exact Nat.le_add_right _ _, hend⟩
    · exact hwithin

/-- `Bitmap::decode` accepts two bytes only as the bitmap of its bits, and not zero. -/
theorem Bitmap.decode_eq_ok {bytes : List UInt8} {bitmap : UInt16}
    (h : Bitmap.decode bytes = .ok bitmap) (hlen : bytes.length = 2) :
    bitmap ≠ 0 ∧ bytes =
      [(Bitmap.encode ((List.range nibbleLength).map (Bitmap.valueAt bitmap))).1,
        (Bitmap.encode ((List.range nibbleLength).map (Bitmap.valueAt bitmap))).2] := by
  rcases bytes with _ | ⟨b0, _ | ⟨b1, _ | ⟨b2, rest⟩⟩⟩
  · cases hlen
  · cases hlen
  · rw [Bitmap.decode] at h
    split at h
    · cases h
    · next hne =>
        cases h
        refine ⟨hne, ?_⟩
        rw [Bitmap.encode, bitmapOf_valueAt, encode_leValue]
  · simp at hlen

/-- A branch is accepted only with the bitmap of the children it has. -/
theorem spans_decodeBranch (hashLength : Nat) (containsHash branchHasValue : Bool)
    (nibbleCount : Nat) :
    Spans (decodeBranch compact hashLength containsHash branchHasValue nibbleCount) fun c plan w =>
      ∃ partialKey children value,
        plan.build c.data = .nibbledBranch ⟨partialKey, numberPadding nibbleCount⟩ children value ∧
        w = partialKey ++ [(Bitmap.encode (children.map Option.isSome)).1,
            (Bitmap.encode (children.map Option.isSome)).2] ++
          (value.map (encodeValue compact)).getD [] ++
          (children.map (encodeHandle compact)).flatten ∧
        partialKey.length = (nibbleCount + (nibblePerByte - 1)) / nibblePerByte ∧
        children.length = nibbleLength ∧ value.isSome = branchHasValue ∧
        (∀ v ∈ value, v.isNode = containsHash) ∧
        (∀ child ∈ children, ∀ handle ∈ child, handle.HashFits hashLength) ∧
        ∀ r ∈ plan.ranges, RangeWithin c.data.length r := by
  rw [decodeBranch]
  refine ((ByteSliceInput.spans_take_within _).bind fun partialRange =>
    (ByteSliceInput.spans_take_within bitmapLength).bind fun bitmapRange =>
    spans_get.bind fun input =>
    (spans_lift _).bind fun bitmap =>
    (spans_optionalValue compact hashLength containsHash branchHasValue).bind fun valuePlan =>
    (spans_decodeChildren compact hashLength bitmap).bind fun plans =>
    spans_pure (NodePlan.nibbledBranch ⟨partialRange, numberPadding nibbleCount⟩ valuePlan
      plans)).imp ?_
  rintro c _ _ ⟨partialRange, w₁, _, rfl, ⟨hrange₁, hlen₁, hend₁, hslice₁⟩,
    bitmapRange, w₂, _, rfl, ⟨hrange₂, hlen₂, _, hslice₂⟩,
    input, _, _, rfl, ⟨rfl, rfl⟩,
    bitmap, _, _, rfl, ⟨hbitmap, rfl⟩,
    valuePlan, _, _, rfl, ⟨hhas, hkind, hvalueWithin, rfl⟩,
    plans, _, _, rfl, ⟨hbits, hhandles, rfl⟩, rfl, rfl⟩
  -- the two bytes of the bitmap are those of the children found
  have hdecode : Bitmap.decode w₂ = .ok bitmap := by
    rw [← hslice₂]
    exact hbitmap
  obtain ⟨_, hw₂⟩ := Bitmap.decode_eq_ok hdecode hlen₂
  have hpresent : (plans.map (Option.map (NodeHandlePlan.build c.data))).map Option.isSome =
      (List.range nibbleLength).map (Bitmap.valueAt bitmap) := by
    rw [List.map_map, ← hbits]
    exact List.map_congr_left fun p _ => Option.isSome_map
  refine ⟨w₁, plans.map (Option.map (NodeHandlePlan.build c.data)),
    valuePlan.map (ValuePlan.build c.data), ?_, ?_, hlen₁, ?_, hhas, hkind, ?_, ?_⟩
  · rw [NodePlan.build, NibbleSlicePlan.build, hslice₁]
  · rw [hpresent, ← hw₂]
    simp only [List.append_assoc, List.nil_append, List.append_nil, List.map_map]
    rfl
  · have hlen := congrArg List.length hbits
    rw [List.length_map, List.length_map, List.length_range] at hlen
    rw [List.length_map, hlen]
  · intro child hchild handle hhandle
    obtain ⟨p, hp, rfl⟩ := List.mem_map.mp hchild
    obtain ⟨q, hq, rfl⟩ := Option.mem_map.mp hhandle
    exact (hhandles p hp q hq).1
  · rintro r (_ | ⟨_, hr⟩)
    · exact ⟨by rw [hrange₁]; exact Nat.le_add_right _ _, hend₁⟩
    · rcases List.mem_append.mp hr with hr | hr
      · obtain ⟨p, hp, rfl⟩ := Option.mem_map.mp (Option.mem_toList.mp hr)
        exact hvalueWithin p hp
      · obtain ⟨p, hp, hpr⟩ := List.mem_filterMap.mp hr
        obtain ⟨q, hq, rfl⟩ := Option.map_eq_some_iff.mp hpr
        exact (hhandles p hp q hq).2

end Spans

/-! ## What the decoded node encodes to -/

/-- `NibbleSlice::len`: the nibbles of the bytes, less the padding. -/
def NibbleSlice.len (nibbles : NibbleSlice) : Nat :=
  nibbles.data.length * nibblePerByte - nibbles.offset

/-- The child reference a handle is, where it fits in an `H::Out`. -/
def NodeHandle.toChildReference (hashLength : Nat) : NodeHandle → Option (ChildReference hashLength)
  | .hash h => if hlen : h.length = hashLength then some (.hash h hlen) else none
  | .inline data => if hle : data.length ≤ hashLength then some (.inline data hle) else none

/-- What the codec writes for a node, `none` where a child of it fits in no `H::Out`, so that no
`ChildReference` holds it. -/
def Node.encoded (compact : Compact) (hashLength : Nat) : Node → Option (List UInt8)
  | .empty => some [emptyTrie]
  | .leaf partialKey value => some (leafNode compact partialKey.data partialKey.len value)
  | .nibbledBranch partialKey children value =>
      (children.mapM fun (child : Option NodeHandle) =>
        child.mapM (NodeHandle.toChildReference hashLength)).map
        fun refs => branchNodeNibbled compact partialKey.data partialKey.len refs value

def Node.InlineFits (hashLength : Nat) : Node → Prop
  | .nibbledBranch _ children _ =>
      ∀ child ∈ children, ∀ handle ∈ child, ∀ data, handle = .inline data → data.length ≤ hashLength
  | _ => True

theorem len_packed {partialKey : List UInt8} {nibbleCount : Nat}
    (hpartialKey : partialKey.length = (nibbleCount + (nibblePerByte - 1)) / nibblePerByte) :
    NibbleSlice.len ⟨partialKey, numberPadding nibbleCount⟩ = nibbleCount := by
  simp only [NibbleSlice.len, numberPadding, hpartialKey, nibblePerByte]
  omega

theorem leafNode_eq (partialKey : List UInt8) (nibbleCount : Nat) (value : Value) :
    leafNode compact partialKey nibbleCount value =
      (if value.isNode then NodeHeader.hashedValueLeaf nibbleCount
        else NodeHeader.leaf nibbleCount).encode ++ (partialKey ++ encodeValue compact value) := by
  cases value <;> exact List.append_assoc _ _ _

/-- Handles with hashes of the length of one and inline children that fit are child references. -/
theorem mapM_toChildReference (hashLength : Nat) :
    ∀ children : List (Option NodeHandle),
      (∀ child ∈ children, ∀ handle ∈ child, handle.HashFits hashLength) →
      (∀ child ∈ children, ∀ handle ∈ child, ∀ data, handle = .inline data →
        data.length ≤ hashLength) →
      ∃ refs, (children.mapM fun (child : Option NodeHandle) =>
        child.mapM (NodeHandle.toChildReference hashLength)) = some refs ∧
        refs.map (Option.map ChildReference.toHandle) = children
  | [], _, _ => ⟨[], rfl, rfl⟩
  | child :: children, hhash, hinline => by
    obtain ⟨refs, hrefs, hmap⟩ := mapM_toChildReference hashLength children
      (fun c hc => hhash c (List.mem_cons_of_mem _ hc))
      (fun c hc => hinline c (List.mem_cons_of_mem _ hc))
    -- the reference of the first child
    obtain ⟨ref, href, hrefMap⟩ : ∃ ref, child.mapM (NodeHandle.toChildReference hashLength) =
        some ref ∧ ref.map ChildReference.toHandle = child := by
      rcases child with _ | ⟨h | data⟩
      · exact ⟨none, rfl, rfl⟩
      · have hlen : h.length = hashLength := hhash _ List.mem_cons_self _ rfl
        exact ⟨some (.hash h hlen), by simp [NodeHandle.toChildReference, hlen], rfl⟩
      · have hle : data.length ≤ hashLength := hinline _ List.mem_cons_self _ rfl data rfl
        exact ⟨some (.inline data hle), by simp [NodeHandle.toChildReference, hle], rfl⟩
    refine ⟨ref :: refs, ?_, by rw [List.map_cons, hrefMap, hmap]⟩
    rw [List.mapM_cons, href, hrefs]
    rfl

/-- The padding check passes, or `decode_plan` returns what it does. -/
theorem eq_ok_of_map_bind {ε β : Type} {checked : Option (Except ε Unit)} {e : Except ε β} {r : β}
    (h : checked.map (fun checked => checked.bind fun _ => e) = some (.ok r)) : e = .ok r := by
  rcases checked with _ | _ | _
  · cases h
  · cases h
  · exact Option.some.inj h

theorem eq_append_of_drop {data w₁ w₂ : List UInt8}
    (h₁ : data.drop 0 = w₁ ++ data.drop (0 + w₁.length))
    (h₂ : data.drop (0 + w₁.length) = w₂ ++ data.drop (0 + w₁.length + w₂.length))
    (hend : 0 + w₁.length + w₂.length = data.length) : data = w₁ ++ w₂ := by
  rw [hend, List.drop_length, List.append_nil] at h₂
  rw [← List.drop_zero (l := data), h₁, h₂]

theorem encoded_of_decodeLeaf {hashLength nibbleCount : Nat} {containsHash : Bool}
    {header : NodeHeader} {data : List UInt8} {plan : NodePlan} {input : ByteSliceInput}
    (hheader : ∀ (partialKey : List UInt8) (value : Value), value.isNode = containsHash →
      leafNode compact partialKey nibbleCount value =
        header.encode ++ (partialKey ++ encodeValue compact value))
    (hdrop : data.drop 0 = header.encode ++ data.drop (0 + header.encode.length))
    (hbody : decodeLeaf compact hashLength containsHash nibbleCount
      ⟨data, 0 + header.encode.length⟩ = .ok (plan, input))
    (hend : input.offset = data.length) :
    (plan.build data).encoded compact hashLength = some data := by
  obtain ⟨w, rfl, hdata, partialKey, value, hbuild, rfl, hpartialKey, hkind, -⟩ :=
    spans_decodeLeaf compact hashLength containsHash nibbleCount data _ plan _ hbody
  rw [hbuild, Node.encoded, len_packed hpartialKey, hheader partialKey value hkind,
    eq_append_of_drop hdrop hdata hend]

theorem encoded_of_decodeBranch {hashLength nibbleCount : Nat} {containsHash branchHasValue : Bool}
    {header : NodeHeader} {data : List UInt8} {plan : NodePlan} {input : ByteSliceInput}
    (hheader : ∀ (partialKey : List UInt8) (value : Option Value), value.isSome = branchHasValue →
      (∀ v ∈ value, v.isNode = containsHash) →
      partialFromIteratorEncode partialKey nibbleCount (branchKind value) =
        header.encode ++ partialKey)
    (hdrop : data.drop 0 = header.encode ++ data.drop (0 + header.encode.length))
    (hbody : decodeBranch compact hashLength containsHash branchHasValue nibbleCount
      ⟨data, 0 + header.encode.length⟩ = .ok (plan, input))
    (hend : input.offset = data.length) (hfits : (plan.build data).InlineFits hashLength) :
    (plan.build data).encoded compact hashLength = some data := by
  obtain ⟨w, rfl, hdata, partialKey, children, value, hbuild, rfl, hpartialKey, _, hhas, hkind,
    hhash, -⟩ := spans_decodeBranch compact hashLength containsHash branchHasValue nibbleCount
      data _ plan _ hbody
  rw [hbuild] at hfits
  obtain ⟨refs, hrefs, hmap⟩ := mapM_toChildReference hashLength children hhash hfits
  have hbits : refs.map Option.isSome = children.map Option.isSome := by
    rw [← hmap, List.map_map]
    exact List.map_congr_left fun ref _ => Option.isSome_map.symm
  have hbytes : (refs.map fun ref => encodeHandle compact (ref.map ChildReference.toHandle)) =
      children.map (encodeHandle compact) := by
    rw [← hmap, List.map_map]
    rfl
  rw [hbuild, Node.encoded, hrefs, Option.map_some, len_packed hpartialKey, branchNodeNibbled_eq,
    hheader partialKey value hhas hkind, hbits, hbytes, eq_append_of_drop hdrop hdata hend]
  simp only [List.append_assoc]

/-- What `decode_plan` accepts, consuming all of it, is the encoding of the node it decodes to,
where that node has one. -/
theorem encoded_of_decodePlan {hashLength : Nat} {data : List UInt8} {plan : NodePlan}
    {input : ByteSliceInput} (h : decodePlan compact hashLength data = some (.ok (plan, input)))
    (hend : input.offset = data.length) (hfits : (plan.build data).InlineFits hashLength) :
    (plan.build data).encoded compact hashLength = some data := by
  rw [decodePlan] at h
  split at h
  · cases h
  · next header input₁ hheader =>
      obtain ⟨w, rfl, hdrop, rfl⟩ := NodeHeader.spans_decode data 0 header input₁ hheader
      -- one arm for each kind of header
      cases header with
      | null =>
        injection h with h
        injection h with h
        cases h
        rw [NodePlan.build, Node.encoded,
          @eq_append_of_drop data _ [] hdrop rfl hend, List.append_nil]
        rfl
      | branch hasValue nibbleCount =>
        refine @encoded_of_decodeBranch compact hashLength nibbleCount false hasValue _ data plan
            input
          ?_ hdrop (eq_ok_of_map_bind h) hend hfits
        intro partialKey value hhas hkind
        rcases value with _ | ⟨_ | _⟩
        · rw [← hhas]
          rfl
        · rw [← hhas]
          rfl
        · cases hkind _ rfl
      | hashedValueBranch nibbleCount =>
        refine @encoded_of_decodeBranch compact hashLength nibbleCount true true _ data plan input
          ?_ hdrop (eq_ok_of_map_bind h) hend hfits
        intro partialKey value hhas hkind
        rcases value with _ | ⟨_ | _⟩
        · cases hhas
        · cases hkind _ rfl
        · rfl
      | leaf nibbleCount =>
        refine @encoded_of_decodeLeaf compact hashLength nibbleCount false _ data plan input
          ?_ hdrop (eq_ok_of_map_bind h) hend
        intro partialKey value hkind
        rw [leafNode_eq, hkind, if_neg Bool.false_ne_true]
      | hashedValueLeaf nibbleCount =>
        refine @encoded_of_decodeLeaf compact hashLength nibbleCount true _ data plan input
          ?_ hdrop (eq_ok_of_map_bind h) hend
        intro partialKey value hkind
        rw [leafNode_eq, hkind, if_pos rfl]

/-! ## Where `decode_plan` panics -/

def NodeHeader.nibbleCount : NodeHeader → Nat
  | .null => 0
  | .branch _ nibbleCount | .leaf nibbleCount => nibbleCount
  | .hashedValueBranch nibbleCount | .hashedValueLeaf nibbleCount => nibbleCount

theorem checkPadding_eq_none_iff (nibbleCount : Nat) (input : ByteSliceInput) :
    checkPadding nibbleCount input = none ↔
      nibbleCount % nibblePerByte ≠ 0 ∧ input.data.length ≤ input.offset := by
  rw [checkPadding]
  split
  · next hodd =>
      split
      · next hnone => exact ⟨fun _ => ⟨hodd, List.getElem?_eq_none_iff.mp hnone⟩, fun _ => rfl⟩
      · next b hsome =>
          have hlt : input.offset < input.data.length := by
            by_contra hge
            rw [List.getElem?_eq_none (Nat.le_of_not_lt hge)] at hsome
            cases hsome
          exact ⟨fun h => (by cases h), fun h => absurd h.2 (Nat.not_le_of_lt hlt)⟩
  · next heven => exact ⟨fun h => (by cases h), fun h => absurd h.1 heven⟩

/-- `decode_plan` panics exactly where the header announces an odd number of nibbles and ends the
data, so that the padding byte it indexes is not there. -/
theorem decodePlan_eq_none_iff (hashLength : Nat) (data : List UInt8) :
    decodePlan compact hashLength data = none ↔
      ∃ header, header ≠ .null ∧ header.nibbleCount % nibblePerByte ≠ 0 ∧
        NodeHeader.decode ⟨data, 0⟩ = .ok (header, ⟨data, data.length⟩) := by
  rw [decodePlan]
  split
  · next e hheader =>
      refine ⟨fun h => (by cases h), ?_⟩
      rintro ⟨_, _, _, hdecode⟩
      rw [hheader] at hdecode
      cases hdecode
  · next header input hheader =>
      obtain ⟨w, rfl, hdrop, rfl⟩ := NodeHeader.spans_decode data 0 header input hheader
      have hle : 0 + header.encode.length ≤ data.length := by
        have hlen := congrArg List.length hdrop
        rw [List.length_drop, List.length_append] at hlen
        omega
      -- the arm panics where its padding check does
      have hbody :
          decodeBody compact hashLength header ⟨data, 0 + header.encode.length⟩ = none ↔
          header ≠ .null ∧ checkPadding header.nibbleCount ⟨data, 0 + header.encode.length⟩ = none := by
        cases header <;> simp [decodeBody, NodeHeader.nibbleCount]
      rw [hbody, checkPadding_eq_none_iff]
      constructor
      · rintro ⟨hnull, hodd, hend⟩
        refine ⟨header, hnull, hodd, ?_⟩
        rw [hheader, show 0 + header.encode.length = data.length from
          Nat.le_antisymm hle hend]
      · rintro ⟨header', hnull, hodd, hdecode⟩
        rw [hheader] at hdecode
        injection hdecode with hdecode
        injection hdecode with hheader' hinput
        subst hheader'
        injection hinput with _ hoffset
        exact ⟨hnull, hodd, by simp only [hoffset]; exact Nat.le_refl _⟩

/-- Every range of an accepted plan lies within the data. -/
theorem ranges_within_of_decodePlan {hashLength : Nat} {data : List UInt8} {plan : NodePlan}
    {input : ByteSliceInput} (h : decodePlan compact hashLength data = some (.ok (plan, input))) :
    ∀ r ∈ plan.ranges, RangeWithin data.length r := by
  rw [decodePlan] at h
  split at h
  · cases h
  · next header input₁ hheader =>
      obtain ⟨w, rfl, -, rfl⟩ := NodeHeader.spans_decode data 0 header input₁ hheader
      cases header with
      | null =>
        injection h with h
        injection h with h
        cases h
        simp [NodePlan.ranges]
      | branch hasValue nibbleCount =>
        obtain ⟨_, _, _, _, _, _, -, -, -, -, -, -, -, hwithin⟩ :=
          spans_decodeBranch compact hashLength false hasValue nibbleCount data _ plan input
            (eq_ok_of_map_bind h)
        exact hwithin
      | hashedValueBranch nibbleCount =>
        obtain ⟨_, _, _, _, _, _, -, -, -, -, -, -, -, hwithin⟩ :=
          spans_decodeBranch compact hashLength true true nibbleCount data _ plan input
            (eq_ok_of_map_bind h)
        exact hwithin
      | leaf nibbleCount =>
        obtain ⟨_, _, _, _, _, -, -, -, -, hwithin⟩ :=
          spans_decodeLeaf compact hashLength false nibbleCount data _ plan input (eq_ok_of_map_bind
              h)
        exact hwithin
      | hashedValueLeaf nibbleCount =>
        obtain ⟨_, _, _, _, _, -, -, -, -, hwithin⟩ :=
          spans_decodeLeaf compact hashLength true nibbleCount data _ plan input (eq_ok_of_map_bind
              h)
        exact hwithin

/-- `decode_plan` returns a plan within the data or an error, but panics where a header announcing
an odd number of nibbles ends the data, as the byte `0x41` does. -/
theorem decodePlan_panics_on_missing_padding (compact : Compact) :
    (∀ (hashLength : Nat) (data : List UInt8), decodePlan compact hashLength data = none ↔
      ∃ header, header ≠ .null ∧ header.nibbleCount % nibblePerByte ≠ 0 ∧
        NodeHeader.decode ⟨data, 0⟩ = .ok (header, ⟨data, data.length⟩)) ∧
    (∀ (hashLength : Nat) (data : List UInt8) (plan : NodePlan) (input : ByteSliceInput),
      decodePlan compact hashLength data = some (.ok (plan, input)) →
        ∀ r ∈ plan.ranges, r.1 ≤ r.2 ∧ r.2 ≤ data.length) ∧
    ∀ hashLength, decodePlan compact hashLength [0x41] = none :=
  ⟨decodePlan_eq_none_iff, fun _ _ _ _ h => ranges_within_of_decodePlan h, fun _ => rfl⟩

end Substrate.Trie
