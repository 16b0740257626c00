import Mathlib
import Substrate.Trie.Scale

/-! # The node header

`src/primitives/trie/src/node_header.rs`: the kind in the top bits of the first byte and the nibble
count in the others, continued in bytes of 255 ended by one below. The decoder reads back what the
encoder writes and accepts nothing else.
-/

namespace Substrate.Trie

open Decoder

def leafPrefixMask : UInt8 := (0b01 : UInt8) <<< 6

def branchWithoutMask : UInt8 := (0b10 : UInt8) <<< 6

def branchWithMask : UInt8 := (0b11 : UInt8) <<< 6

def emptyTrie : UInt8 := (0b00 : UInt8) <<< 6 ||| (0b00 : UInt8) <<< 4

def altHashingLeafPrefixMask : UInt8 := (0b00 : UInt8) <<< 6 ||| (0b1 : UInt8) <<< 5

def altHashingBranchWithMask : UInt8 := (0b00 : UInt8) <<< 6 ||| (0b01 : UInt8) <<< 4

/-- `NodeHeader`: the kind of a node and its nibble count. -/
inductive NodeHeader
  | null
  | branch (hasValue : Bool) (nibbleCount : Nat)
  | leaf (nibbleCount : Nat)
  | hashedValueBranch (nibbleCount : Nat)
  | hashedValueLeaf (nibbleCount : Nat)
  deriving DecidableEq, Repr

namespace NodeHeader

def containsHashOfValue : NodeHeader → Bool
  | .hashedValueBranch _ | .hashedValueLeaf _ => true
  | _ => false

def sizeContinuation (rem : Nat) : List UInt8 :=
  if rem > 0 then
    if rem < 256 then [(rem - 1).toUInt8] else 255 :: sizeContinuation (rem - 255)
  else []
termination_by rem
decreasing_by omega

/-- `size_and_prefix_iterator`: prefix and size in one byte when the size is below the largest value
of its bits, else those bits set and the continuation. -/
def sizeAndPrefixIterator (size : Nat) (prefixByte : UInt8) (prefixMask : Nat) : List UInt8 :=
  let maxValue := 255 >>> prefixMask
  let l1 := min (maxValue - 1) size
  if size = l1 then [prefixByte + l1.toUInt8]
  else (prefixByte + maxValue.toUInt8) :: sizeContinuation (size - l1)

def encode : NodeHeader → List UInt8
  | .null => [emptyTrie]
  | .branch true nibbleCount => sizeAndPrefixIterator nibbleCount branchWithMask 2
  | .branch false nibbleCount => sizeAndPrefixIterator nibbleCount branchWithoutMask 2
  | .leaf nibbleCount => sizeAndPrefixIterator nibbleCount leafPrefixMask 2
  | .hashedValueBranch nibbleCount => sizeAndPrefixIterator nibbleCount altHashingBranchWithMask 4
  | .hashedValueLeaf nibbleCount => sizeAndPrefixIterator nibbleCount altHashingLeafPrefixMask 3

/-- The loop of `decode_size`: 255 for each byte of 255, and the first byte below it ends the
size. -/
def decodeSizeLoop (result : Nat) (input : ByteSliceInput) : Except Error (Nat × ByteSliceInput) :=
  match h : ByteSliceInput.readByte input with
  | .error e => .error e
  | .ok (n, input') =>
      if n.toNat < 255 then .ok (result + n.toNat + 1, input')
      else decodeSizeLoop (result + 255) input'
termination_by input.data.length - input.offset
decreasing_by
  obtain ⟨rfl, hlt⟩ := ByteSliceInput.readByte_eq_ok h
  simp only [Cursor.advance_data, Cursor.advance_offset]
  omega

def decodeSize (first : UInt8) (prefixMask : Nat) : Decoder UInt8 Error Nat :=
  let maxValue := 255 >>> prefixMask
  let result := (first &&& maxValue.toUInt8).toNat
  if result < maxValue then pure result else decodeSizeLoop (result - 1)

/-- `NodeHeader::decode` after the first byte: the kind from the top two bits, with one or two more
for `00` other than `EMPTY_TRIE`; `unreachable!` is the last `else`. -/
def decodeKind (i : UInt8) : Decoder UInt8 Error NodeHeader :=
  if i = emptyTrie then pure .null
  else if i &&& (0b11 : UInt8) <<< 6 = leafPrefixMask then do return .leaf (← decodeSize i 2)
  else if i &&& (0b11 : UInt8) <<< 6 = branchWithMask then do
    return .branch true (← decodeSize i 2)
  else if i &&& (0b11 : UInt8) <<< 6 = branchWithoutMask then do
    return .branch false (← decodeSize i 2)
  else if i &&& (0b111 : UInt8) <<< 5 = altHashingLeafPrefixMask then do
    return .hashedValueLeaf (← decodeSize i 3)
  else if i &&& (0b1111 : UInt8) <<< 4 = altHashingBranchWithMask then do
    return .hashedValueBranch (← decodeSize i 4)
  else throw (.codec "Unallowed encoding")

def decode : Decoder UInt8 Error NodeHeader := do
  let i ← ByteSliceInput.readByte
  decodeKind i

/-! ## The size continuation -/

theorem sizeContinuation_of_lt {rem : Nat} (hpos : 0 < rem) (hlt : rem < 256) :
    sizeContinuation rem = [(rem - 1).toUInt8] := by
  rw [sizeContinuation, if_pos hpos, if_pos hlt]

theorem sizeContinuation_of_le {rem : Nat} (hle : 256 ≤ rem) :
    sizeContinuation rem = 255 :: sizeContinuation (rem - 255) := by
  rw [sizeContinuation, if_pos (by omega), if_neg (by omega)]

/-- The loop reads a continuation back, from any result so far. -/
theorem readsAt_decodeSizeLoop (rem : Nat) (hrem : 0 < rem) :
    ∀ (o result : Nat), ReadsAt (decodeSizeLoop result) o (sizeContinuation rem) (result + rem) := by
  induction rem using Nat.strong_induction_on with
  | _ rem ih =>
    intro o result data rest ho hdata
    by_cases hlt : rem < 256
    · -- the last byte, below 255
      rw [sizeContinuation_of_lt hrem hlt] at hdata ⊢
      have hread := ByteSliceInput.readsAt_readByte o _ data rest ho hdata
      rw [decodeSizeLoop]
      split
      · next e he => rw [hread] at he; cases he
      · next n input' he =>
          rw [hread] at he
          cases he
          have hbyte : ((rem - 1).toUInt8).toNat = rem - 1 := by
            rw [UInt8.toNat_ofNat']
            exact Nat.mod_eq_of_lt (by omega)
          rw [if_pos (by omega), hbyte, show result + (rem - 1) + 1 = result + rem by omega]
    · -- a byte of 255, and the rest read from the next offset
      rw [sizeContinuation_of_le (by omega)] at hdata ⊢
      have hdata₁ : data.drop o = [255] ++ (sizeContinuation (rem - 255) ++ rest) := hdata
      have hread := ByteSliceInput.readsAt_readByte o 255 data _ ho hdata₁
      rw [decodeSizeLoop]
      split
      · next e he => rw [hread] at he; cases he
      · next n input' he =>
          rw [hread] at he
          cases he
          rw [if_neg (by decide)]
          have hnext := ih (rem - 255) (by omega) (by omega) (o + 1) (result + 255) data rest
            (le_length_of_drop_eq ho hdata₁) (drop_add_of_drop_eq hdata₁)
          rw [List.length_singleton, hnext, List.length_cons]
          simp only [Except.ok.injEq, Prod.mk.injEq, Cursor.mk.injEq, true_and]
          omega

/-- Whatever the loop accepts is a continuation, of the size it returns less the result so far; by
induction on the bytes left. -/
theorem decodeSizeLoop_eq_ok :
    ∀ (k : Nat) (result : Nat) (data : List UInt8) (o v : Nat) (c : ByteSliceInput),
      data.length - o = k → decodeSizeLoop result ⟨data, o⟩ = .ok (v, c) →
      ∃ w, c = ⟨data, o + w.length⟩ ∧ data.drop o = w ++ data.drop (o + w.length) ∧
        result < v ∧ w = sizeContinuation (v - result) := by
  intro k
  induction k using Nat.strong_induction_on with
  | _ k ih =>
    intro result data o v c hk h
    rw [decodeSizeLoop] at h
    split at h
    · cases h
    · next n input' he =>
        obtain ⟨w₁, rfl, hdata₁, rfl⟩ := ByteSliceInput.spans_readByte data o n input' he
        have hlt := (ByteSliceInput.readByte_eq_ok he).2
        dsimp only at hlt
        split at h
        · next hsmall =>
            cases h
            refine ⟨[n], rfl, hdata₁, by omega, ?_⟩
            rw [show result + n.toNat + 1 - result = n.toNat + 1 by omega,
              sizeContinuation_of_lt (by omega) (by omega), Nat.add_sub_cancel]
            simp
        · next hbig =>
            have h255 : n = 255 := by
              have := n.toNat_lt
              rw [← UInt8.toNat_inj]
              simp only [UInt8.reduceToNat]
              omega
            obtain ⟨w₂, rfl, hdata₂, hv, hw₂⟩ :=
              ih (data.length - (o + 1)) (by omega) (result + 255) data (o + 1) v c rfl h
            refine ⟨[n] ++ w₂, by rw [List.length_append, List.length_singleton, Nat.add_assoc,
              Nat.add_comm 1], ?_, by omega, ?_⟩
            · rw [hdata₁, List.length_singleton, hdata₂, List.append_assoc, List.length_append,
                List.length_singleton, Nat.add_assoc, Nat.add_comm 1]
            · rw [h255, hw₂, List.singleton_append, @sizeContinuation_of_le (v - result) (by omega),
                show v - result - 255 = v - (result + 255) by omega]

theorem spans_decodeSizeLoop (result : Nat) :
    Spans (decodeSizeLoop result) fun _ v w => result < v ∧ w = sizeContinuation (v - result) :=
  fun data o v c h => decodeSizeLoop_eq_ok _ result data o v c rfl h

/-! ## The size of a header -/

variable {prefixMask : Nat}

theorem readsAt_decodeSize_of_lt {first : UInt8}
    (h : (first &&& (255 >>> prefixMask).toUInt8).toNat < 255 >>> prefixMask) (o : Nat) :
    ReadsAt (decodeSize first prefixMask) o [] (first &&& (255 >>> prefixMask).toUInt8).toNat := by
  rw [decodeSize]
  rw [if_pos h]
  exact readsAt_pure _ _

theorem readsAt_decodeSize_of_eq {first : UInt8}
    (h : (first &&& (255 >>> prefixMask).toUInt8).toNat = 255 >>> prefixMask) {rem : Nat}
    (hrem : 0 < rem) (o : Nat) :
    ReadsAt (decodeSize first prefixMask) o (sizeContinuation rem) (255 >>> prefixMask - 1 + rem) := by
  rw [decodeSize]
  rw [if_neg (by omega), h]
  exact readsAt_decodeSizeLoop rem hrem o _

/-- The size bits of the first byte are the size when they are below their largest value; all set,
they start the continuation. -/
theorem spans_decodeSize (first : UInt8) (prefixMask : Nat) :
    Spans (decodeSize first prefixMask) fun _ n w =>
      ((first &&& (255 >>> prefixMask).toUInt8).toNat < 255 >>> prefixMask ∧
        n = (first &&& (255 >>> prefixMask).toUInt8).toNat ∧ w = []) ∨
      (255 >>> prefixMask ≤ (first &&& (255 >>> prefixMask).toUInt8).toNat ∧
        (first &&& (255 >>> prefixMask).toUInt8).toNat - 1 < n ∧
        w = sizeContinuation (n - ((first &&& (255 >>> prefixMask).toUInt8).toNat - 1))) := by
  rw [decodeSize]
  split
  · next hlt => exact (spans_pure _).imp fun _ _ _ ⟨hn, hw⟩ => .inl ⟨hlt, hn, hw⟩
  · next hge => exact (spans_decodeSizeLoop _).imp fun _ _ _ ⟨hn, hw⟩ => .inr ⟨by omega, hn, hw⟩

theorem sizeAndPrefixIterator_of_lt {size : Nat} (h : size < 255 >>> prefixMask)
    (prefixByte : UInt8) :
    sizeAndPrefixIterator size prefixByte prefixMask = [prefixByte + size.toUInt8] := by
  rw [sizeAndPrefixIterator]
  rw [Nat.min_eq_right (by omega), if_pos rfl]

theorem sizeAndPrefixIterator_of_le {size : Nat} (h : 255 >>> prefixMask ≤ size)
    (hpos : 0 < 255 >>> prefixMask) (prefixByte : UInt8) :
    sizeAndPrefixIterator size prefixByte prefixMask =
      (prefixByte + (255 >>> prefixMask).toUInt8) ::
        sizeContinuation (size - (255 >>> prefixMask - 1)) := by
  rw [sizeAndPrefixIterator]
  rw [Nat.min_eq_left (by omega), if_neg (by omega)]

/-! ## The first byte

Facts of single bytes, checked over all 256 values. -/

variable (i : UInt8)

theorem byte_split_two :
    i = (i &&& (0b11 : UInt8) <<< 6) + (i &&& (255 >>> 2 : Nat).toUInt8) :=
  forall_byte (P := fun i => i = (i &&& (0b11 : UInt8) <<< 6) + (i &&& (255 >>> 2 : Nat).toUInt8))
    (by decide +kernel) i

theorem byte_split_three :
    i = (i &&& (0b111 : UInt8) <<< 5) + (i &&& (255 >>> 3 : Nat).toUInt8) :=
  forall_byte (P := fun i => i = (i &&& (0b111 : UInt8) <<< 5) + (i &&& (255 >>> 3 : Nat).toUInt8))
    (by decide +kernel) i

theorem byte_split_four :
    i = (i &&& (0b1111 : UInt8) <<< 4) + (i &&& (255 >>> 4 : Nat).toUInt8) :=
  forall_byte (P := fun i => i = (i &&& (0b1111 : UInt8) <<< 4) + (i &&& (255 >>> 4 : Nat).toUInt8))
    (by decide +kernel) i

theorem and_maxValue_le (prefixMask : Nat) :
    (i &&& (255 >>> prefixMask).toUInt8).toNat ≤ 255 >>> prefixMask := by
  have hmax : 255 >>> prefixMask < 2 ^ 8 := by
    rw [Nat.shiftRight_eq_div_pow]
    exact lt_of_le_of_lt (Nat.div_le_self _ _) (by decide)
  rw [UInt8.toNat_and, UInt8.toNat_ofNat', Nat.mod_eq_of_lt hmax]
  exact Nat.and_le_right

/-- The first byte of each kind, with the size bits `k`, is decoded as that kind with those
bits. -/
theorem leaf_byte : ∀ k ≤ 255 >>> 2,
    (leafPrefixMask + k.toUInt8 ≠ emptyTrie ∧
      (leafPrefixMask + k.toUInt8) &&& (0b11 : UInt8) <<< 6 = leafPrefixMask) ∧
    ((leafPrefixMask + k.toUInt8) &&& (255 >>> 2 : Nat).toUInt8).toNat = k := by decide

theorem branchWith_byte : ∀ k ≤ 255 >>> 2,
    (branchWithMask + k.toUInt8 ≠ emptyTrie ∧
      (branchWithMask + k.toUInt8) &&& (0b11 : UInt8) <<< 6 ≠ leafPrefixMask ∧
      (branchWithMask + k.toUInt8) &&& (0b11 : UInt8) <<< 6 = branchWithMask) ∧
    ((branchWithMask + k.toUInt8) &&& (255 >>> 2 : Nat).toUInt8).toNat = k := by decide

theorem branchWithout_byte : ∀ k ≤ 255 >>> 2,
    (branchWithoutMask + k.toUInt8 ≠ emptyTrie ∧
      (branchWithoutMask + k.toUInt8) &&& (0b11 : UInt8) <<< 6 ≠ leafPrefixMask ∧
      (branchWithoutMask + k.toUInt8) &&& (0b11 : UInt8) <<< 6 ≠ branchWithMask ∧
      (branchWithoutMask + k.toUInt8) &&& (0b11 : UInt8) <<< 6 = branchWithoutMask) ∧
    ((branchWithoutMask + k.toUInt8) &&& (255 >>> 2 : Nat).toUInt8).toNat = k := by decide

theorem hashedValueLeaf_byte : ∀ k ≤ 255 >>> 3,
    (altHashingLeafPrefixMask + k.toUInt8 ≠ emptyTrie ∧
      (altHashingLeafPrefixMask + k.toUInt8) &&& (0b11 : UInt8) <<< 6 ≠ leafPrefixMask ∧
      (altHashingLeafPrefixMask + k.toUInt8) &&& (0b11 : UInt8) <<< 6 ≠ branchWithMask ∧
      (altHashingLeafPrefixMask + k.toUInt8) &&& (0b11 : UInt8) <<< 6 ≠ branchWithoutMask ∧
      (altHashingLeafPrefixMask + k.toUInt8) &&& (0b111 : UInt8) <<< 5 = altHashingLeafPrefixMask) ∧
    ((altHashingLeafPrefixMask + k.toUInt8) &&& (255 >>> 3 : Nat).toUInt8).toNat = k := by decide

theorem hashedValueBranch_byte : ∀ k ≤ 255 >>> 4,
    (altHashingBranchWithMask + k.toUInt8 ≠ emptyTrie ∧
      (altHashingBranchWithMask + k.toUInt8) &&& (0b11 : UInt8) <<< 6 ≠ leafPrefixMask ∧
      (altHashingBranchWithMask + k.toUInt8) &&& (0b11 : UInt8) <<< 6 ≠ branchWithMask ∧
      (altHashingBranchWithMask + k.toUInt8) &&& (0b11 : UInt8) <<< 6 ≠ branchWithoutMask ∧
      (altHashingBranchWithMask + k.toUInt8) &&& (0b111 : UInt8) <<< 5 ≠ altHashingLeafPrefixMask ∧
      (altHashingBranchWithMask + k.toUInt8) &&& (0b1111 : UInt8) <<< 4 = altHashingBranchWithMask) ∧
    ((altHashingBranchWithMask + k.toUInt8) &&& (255 >>> 4 : Nat).toUInt8).toNat = k := by decide

/-! ## Reading a header back, and nothing else -/

section Kind

variable {prefixByte : UInt8} {prefixMask : Nat} {mk : Nat → NodeHeader}

/-- A header of one kind reads back, given that each first byte of the kind is decoded as the kind,
with its size bits. -/
theorem readsAt_kind (hpos : 0 < 255 >>> prefixMask)
    (hkind : ∀ k ≤ 255 >>> prefixMask, decodeKind (prefixByte + k.toUInt8) =
      (do return mk (← decodeSize (prefixByte + k.toUInt8) prefixMask)))
    (hbits : ∀ k ≤ 255 >>> prefixMask,
      ((prefixByte + k.toUInt8) &&& (255 >>> prefixMask).toUInt8).toNat = k)
    (o n : Nat) : ReadsAt decode o (sizeAndPrefixIterator n prefixByte prefixMask) (mk n) := by
  rw [decode]
  by_cases hn : n < 255 >>> prefixMask
  · -- the size in the first byte
    rw [sizeAndPrefixIterator_of_lt hn]
    refine ((ByteSliceInput.readsAt_readByte o _).bind ?_).congr (List.append_nil _) rfl
    rw [hkind n hn.le]
    have hsize := readsAt_decodeSize_of_lt (by rw [hbits n hn.le]; exact hn) (o + 1)
    rw [hbits n hn.le] at hsize
    exact hsize.bind (readsAt_pure _ (mk n))
  · -- the size bits all set, and the rest in the continuation
    have hrem : 0 < n - (255 >>> prefixMask - 1) := by omega
    rw [sizeAndPrefixIterator_of_le (by omega) hpos]
    refine ((ByteSliceInput.readsAt_readByte o _).bind ?_).congr rfl rfl
    rw [hkind _ le_rfl]
    have hsize := readsAt_decodeSize_of_eq (hbits _ le_rfl) hrem (o + 1)
    rw [show 255 >>> prefixMask - 1 + (n - (255 >>> prefixMask - 1)) = n by omega] at hsize
    exact (hsize.bind (readsAt_pure _ (mk n))).congr (List.append_nil _) rfl

/-- What a kind's decoder accepts after a first byte of the kind is the rest of the header's
encoding. -/
theorem spans_kind (hpos : 0 < 255 >>> prefixMask)
    (hencode : ∀ n, (mk n).encode = sizeAndPrefixIterator n prefixByte prefixMask) {i : UInt8}
    (hi : i = prefixByte + (i &&& (255 >>> prefixMask).toUInt8)) :
    Spans (do return mk (← decodeSize i prefixMask)) fun _ h w => i :: w = h.encode := by
  refine ((spans_decodeSize i prefixMask).bind fun n => spans_pure (mk n)).imp ?_
  rintro _ h w ⟨n, w₁, w₂, rfl, hsize, rfl, rfl⟩
  rw [hencode, List.append_nil]
  rcases hsize with ⟨hlt, rfl, rfl⟩ | ⟨hge, hn, rfl⟩
  · -- the size in the first byte
    rw [sizeAndPrefixIterator_of_lt hlt, toUInt8_toNat, ← hi]
  · -- the size bits all set
    have hall : (i &&& (255 >>> prefixMask).toUInt8).toNat = 255 >>> prefixMask :=
      le_antisymm (and_maxValue_le i prefixMask) hge
    have hfirst : prefixByte + (255 >>> prefixMask).toUInt8 = i := by
      rw [← hall, toUInt8_toNat]
      exact hi.symm
    rw [sizeAndPrefixIterator_of_le (by omega) hpos, hall, hfirst]

end Kind

variable (k : Nat)

theorem decodeKind_leaf (hk : k ≤ 255 >>> 2) :
    decodeKind (leafPrefixMask + k.toUInt8) =
      (do return .leaf (← decodeSize (leafPrefixMask + k.toUInt8) 2)) := by
  have hbyte := leaf_byte k hk
  rw [decodeKind, if_neg hbyte.1.1, if_pos hbyte.1.2]

theorem decodeKind_branchWith (hk : k ≤ 255 >>> 2) :
    decodeKind (branchWithMask + k.toUInt8) =
      (do return .branch true (← decodeSize (branchWithMask + k.toUInt8) 2)) := by
  obtain ⟨⟨hnull, hleaf, hwith⟩, -⟩ := branchWith_byte k hk
  rw [decodeKind, if_neg hnull, if_neg hleaf, if_pos hwith]

theorem decodeKind_branchWithout (hk : k ≤ 255 >>> 2) :
    decodeKind (branchWithoutMask + k.toUInt8) =
      (do return .branch false (← decodeSize (branchWithoutMask + k.toUInt8) 2)) := by
  obtain ⟨⟨hnull, hleaf, hwith, hwithout⟩, -⟩ := branchWithout_byte k hk
  rw [decodeKind, if_neg hnull, if_neg hleaf, if_neg hwith, if_pos hwithout]

theorem decodeKind_hashedValueLeaf (hk : k ≤ 255 >>> 3) :
    decodeKind (altHashingLeafPrefixMask + k.toUInt8) =
      (do return .hashedValueLeaf (← decodeSize (altHashingLeafPrefixMask + k.toUInt8) 3)) := by
  obtain ⟨⟨hnull, hleaf, hwith, hwithout, haltLeaf⟩, -⟩ := hashedValueLeaf_byte k hk
  rw [decodeKind, if_neg hnull, if_neg hleaf, if_neg hwith, if_neg hwithout, if_pos haltLeaf]

theorem decodeKind_hashedValueBranch (hk : k ≤ 255 >>> 4) :
    decodeKind (altHashingBranchWithMask + k.toUInt8) =
      (do return .hashedValueBranch (← decodeSize (altHashingBranchWithMask + k.toUInt8) 4)) := by
  obtain ⟨⟨hnull, hleaf, hwith, hwithout, haltLeaf, haltBranch⟩, -⟩ := hashedValueBranch_byte k hk
  rw [decodeKind, if_neg hnull, if_neg hleaf, if_neg hwith, if_neg hwithout, if_neg haltLeaf,
    if_pos haltBranch]

/-- The decoder reads every header back from its encoding. -/
theorem readsAt_decode (o : Nat) : ∀ h : NodeHeader, ReadsAt decode o h.encode h
  | .null => by
    rw [encode, decode]
    refine ((ByteSliceInput.readsAt_readByte o _).bind ?_).congr (List.append_nil _) rfl
    rw [decodeKind, if_pos rfl]
    exact readsAt_pure _ _
  | .branch true n =>
    readsAt_kind (by decide) decodeKind_branchWith (fun k hk => (branchWith_byte k hk).2) o n
  | .branch false n =>
    readsAt_kind (by decide) decodeKind_branchWithout (fun k hk => (branchWithout_byte k hk).2) o n
  | .leaf n => readsAt_kind (by decide) decodeKind_leaf (fun k hk => (leaf_byte k hk).2) o n
  | .hashedValueBranch n =>
    readsAt_kind (by decide) decodeKind_hashedValueBranch
      (fun k hk => (hashedValueBranch_byte k hk).2) o n
  | .hashedValueLeaf n =>
    readsAt_kind (by decide) decodeKind_hashedValueLeaf
      (fun k hk => (hashedValueLeaf_byte k hk).2) o n

/-- After the first byte, the decoder accepts the rest of an encoding that starts with it. -/
theorem spans_decodeKind : Spans (decodeKind i) fun _ h w => i :: w = h.encode := by
  rw [decodeKind]
  split_ifs with hnull hleaf hwith hwithout haltLeaf haltBranch
  · exact (spans_pure _).imp fun _ _ _ ⟨hh, hw⟩ => by rw [hh, hw, hnull]; rfl
  · have hi := byte_split_two i
    rw [hleaf] at hi
    exact spans_kind (by decide) (fun _ => rfl) hi
  · have hi := byte_split_two i
    rw [hwith] at hi
    exact spans_kind (by decide) (fun _ => rfl) hi
  · have hi := byte_split_two i
    rw [hwithout] at hi
    exact spans_kind (by decide) (fun _ => rfl) hi
  · have hi := byte_split_three i
    rw [haltLeaf] at hi
    exact spans_kind (by decide) (fun _ => rfl) hi
  · have hi := byte_split_four i
    rw [haltBranch] at hi
    exact spans_kind (by decide) (fun _ => rfl) hi
  · exact spans_throw _ _

/-- The decoder accepts only encodings of headers: the header encoding is canonical. -/
theorem spans_decode : Spans decode fun _ h w => w = h.encode := by
  refine (ByteSliceInput.spans_readByte.bind spans_decodeKind).imp ?_
  rintro _ h w ⟨i, w₁, w₂, rfl, rfl, hw⟩
  exact hw

end NodeHeader

end Substrate.Trie
