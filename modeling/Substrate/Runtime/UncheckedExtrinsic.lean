import Mathlib
import Substrate.Trie.Scale

/-! # The codec of unchecked extrinsics

`src/primitives/runtime/src/generic/unchecked_extrinsic.rs`: a SCALE `Vec<u8>` of a version byte,
the signature payload if any, and the call. The codecs of the parts and `Compact<u32>` of the
length prefix are parameters; where they are canonical so is the extrinsic's.
-/

namespace Substrate.Runtime

open Decoder Trie

def extrinsicFormatVersion : UInt8 := 4

/-- `UncheckedExtrinsic`: the payload `(Address, Signature, Extra)` of a signed extrinsic, and the
call. -/
structure UncheckedExtrinsic (Address Call Signature Extra : Type) where
  signature : Option (Address × Signature × Extra)
  function : Call
  deriving DecidableEq, Repr

def remainingLen : Decoder UInt8 Error (Option Nat) := fun input =>
  .ok (some (input.data.length - input.offset), input)

/-- The version byte of `decode`: the signed bit, and an error unless the other bits are the
format version. -/
def decodeVersion : Decoder UInt8 Error Bool := do
  let version ← ByteSliceInput.readByte
  let isSigned := version &&& 0b1000_0000 != 0
  let version := version &&& 0b0111_1111
  if version != extrinsicFormatVersion then throw (.codec "Invalid transaction version")
  else return isSigned

/-- The check of the length prefix at the end of `decode`, made where the input reports its
remaining length both before and after the body. -/
def checkLengthPrefix (expectedLength : Nat) (beforeLength afterLength : Option Nat) :
    Except Error Unit :=
  match afterLength.bind fun a => beforeLength.map fun b => (b, a) with
  | some (beforeLength, afterLength) =>
      -- `saturating_sub`
      let length := beforeLength - afterLength
      if length != expectedLength then .error (.codec "Invalid length prefix") else .ok ()
  | none => .ok ()

section Codec

variable {Address Call Signature Extra : Type} (compact : Compact)
variable (addressCodec : Codec UInt8 Error Address) (signatureCodec : Codec UInt8 Error Signature)
  (extraCodec : Codec UInt8 Error Extra) (callCodec : Codec UInt8 Error Call)

def payloadCodec : Codec UInt8 Error (Address × Signature × Extra) :=
  addressCodec.prod (signatureCodec.prod extraCodec)

/-- The body that `decode` reads: the version byte, the signature payload where the signed bit is
set, and the call. -/
def decodeBody : Decoder UInt8 Error (UncheckedExtrinsic Address Call Signature Extra) := do
  let isSigned ← decodeVersion
  let signature ← decodeIf isSigned (payloadCodec addressCodec signatureCodec extraCodec).decode
  let function ← callCodec.decode
  return ⟨signature, function⟩

/-- `UncheckedExtrinsic::decode`: the length prefix, the body, and the check of the prefix against
the number of bytes the body took. -/
def decode : Decoder UInt8 Error (UncheckedExtrinsic Address Call Signature Extra) := do
  let expectedLength ← compact.decode
  let beforeLength ← remainingLen
  let extrinsic ← decodeBody addressCodec signatureCodec extraCodec callCodec
  checkLengthPrefix expectedLength beforeLength (← remainingLen)
  return extrinsic

/-- The bytes `encode` gathers in `tmp`: the version byte, with the signed bit and the signature
payload where there is one, then the call. -/
def encodeBody (x : UncheckedExtrinsic Address Call Signature Extra) : List UInt8 :=
  let tmp := match x.signature with
    | some s =>
        (extrinsicFormatVersion ||| 0b1000_0000) ::
          (payloadCodec addressCodec signatureCodec extraCodec).encode s
    | none => [extrinsicFormatVersion &&& 0b0111_1111]
  tmp ++ callCodec.encode x.function

/-- `UncheckedExtrinsic::encode`: the body behind its `Compact<u32>` length, which `as u32` takes
modulo `2^32`. -/
def encode (x : UncheckedExtrinsic Address Call Signature Extra) : List UInt8 :=
  let tmp := encodeBody addressCodec signatureCodec extraCodec callCodec x
  let compactLen := tmp.length % 2 ^ 32
  compact.encode compactLen ++ tmp

end Codec

example : encode Compact.fixed u8Codec u8Codec u8Codec u8Codec ⟨some (1, 2, 3), 9⟩ =
    [5, 0, 0, 0, 132, 1, 2, 3, 9] := by
  decide

/-! ## The version byte and the length check -/

theorem readsAt_decodeVersion_signed (o : Nat) :
    ReadsAt decodeVersion o [extrinsicFormatVersion ||| 0b1000_0000] true := by
  refine ((ByteSliceInput.readsAt_readByte o _).bind ?_).congr (List.append_nil _) rfl
  dsimp only
  rw [if_neg (by decide)]
  exact (readsAt_pure _ _).congr rfl (by decide)

theorem readsAt_decodeVersion_unsigned (o : Nat) :
    ReadsAt decodeVersion o [extrinsicFormatVersion &&& 0b0111_1111] false := by
  refine ((ByteSliceInput.readsAt_readByte o _).bind ?_).congr (List.append_nil _) rfl
  dsimp only
  rw [if_neg (by decide)]
  exact (readsAt_pure _ _).congr rfl (by decide)

/-- The only bytes whose low seven bits are the format version are the two `encode` writes. -/
theorem eq_of_version (b : UInt8) (h : ¬(b &&& 0b0111_1111 != extrinsicFormatVersion) = true) :
    b = if (b &&& 0b1000_0000 != 0) = true then extrinsicFormatVersion ||| 0b1000_0000
      else extrinsicFormatVersion &&& 0b0111_1111 := by
  revert b
  apply forall_byte
  decide +kernel

theorem spans_decodeVersion :
    Spans decodeVersion fun _ isSigned w =>
      w = [if isSigned then extrinsicFormatVersion ||| 0b1000_0000
        else extrinsicFormatVersion &&& 0b0111_1111] := by
  refine (ByteSliceInput.spans_readByte.bind fun b => spans_ite_throw _ _ _).imp ?_
  rintro _ _ _ ⟨b, _, _, rfl, rfl, hversion, rfl, rfl⟩
  rw [List.append_nil, ← eq_of_version b hversion]

theorem reads_remainingLen (P : List UInt8 → Prop) (o : Nat) :
    Reads P remainingLen o [] fun data v => o ≤ data.length ∧ v = some (data.length - o) :=
  fun _ _ ho _ _ => ⟨_, rfl, ho, rfl⟩

theorem spans_remainingLen :
    Spans remainingLen fun c v w => v = some (c.data.length - c.offset) ∧ w = [] := by
  intro data o v c h
  cases h
  exact ⟨[], rfl, by simp, rfl, rfl⟩

/-- Where the input reports its length before and after the body, the check passes exactly when
the prefix is the number of bytes between. -/
theorem checkLengthPrefix_eq_ok {expectedLength beforeLength afterLength : Nat} {u : Unit} :
    checkLengthPrefix expectedLength (some beforeLength) (some afterLength) = .ok u ↔
      beforeLength - afterLength = expectedLength := by
  simp only [checkLengthPrefix, Option.bind_some, Option.map_some]
  by_cases h : beforeLength - afterLength = expectedLength
  · simp [h]
  · simp [h]

section Codec

variable {Address Call Signature Extra : Type} (compact : Compact)
variable {addressCodec : Codec UInt8 Error Address} {signatureCodec : Codec UInt8 Error Signature}
  {extraCodec : Codec UInt8 Error Extra} {callCodec : Codec UInt8 Error Call}

/-! ## The body -/

theorem encodeBody_ne_nil (x : UncheckedExtrinsic Address Call Signature Extra) :
    encodeBody addressCodec signatureCodec extraCodec callCodec x ≠ [] := by
  rw [encodeBody]
  split <;> simp

theorem readsAt_decodeBody (hpayload : (payloadCodec addressCodec signatureCodec extraCodec).Canonical)
    (hcall : callCodec.Canonical) (x : UncheckedExtrinsic Address Call Signature Extra) (o : Nat) :
    ReadsAt (decodeBody addressCodec signatureCodec extraCodec callCodec) o
      (encodeBody addressCodec signatureCodec extraCodec callCodec x) x := by
  obtain ⟨signature, function⟩ := x
  cases signature with
  | none =>
    rw [show encodeBody addressCodec signatureCodec extraCodec callCodec ⟨none, function⟩ =
        [extrinsicFormatVersion &&& 0b0111_1111] ++ ([] ++ (callCodec.encode function ++ [])) by
      simp [encodeBody]]
    exact (readsAt_decodeVersion_unsigned o).bind ((hpayload.readsAt_decodeIf none _).bind
      ((hcall.readsAt function _).bind (readsAt_pure _ _)))
  | some s =>
    rw [show encodeBody addressCodec signatureCodec extraCodec callCodec ⟨some s, function⟩ =
        [extrinsicFormatVersion ||| 0b1000_0000] ++
          ((payloadCodec addressCodec signatureCodec extraCodec).encode s ++
            (callCodec.encode function ++ [])) by
      simp [encodeBody]]
    exact (readsAt_decodeVersion_signed o).bind ((hpayload.readsAt_decodeIf (some s) _).bind
      ((hcall.readsAt function _).bind (readsAt_pure _ _)))

theorem spans_decodeBody (hpayload : (payloadCodec addressCodec signatureCodec extraCodec).Canonical)
    (hcall : callCodec.Canonical) :
    Spans (decodeBody addressCodec signatureCodec extraCodec callCodec) fun _ x w =>
      w = encodeBody addressCodec signatureCodec extraCodec callCodec x := by
  refine (spans_decodeVersion.bind fun isSigned => (hpayload.spans_decodeIf isSigned).bind
    fun signature => hcall.spans.bind fun function => spans_pure _).imp ?_
  rintro _ _ _ ⟨_, _, _, rfl, rfl, signature, _, _, rfl, ⟨rfl, rfl⟩, function, _, _, rfl, rfl,
    rfl, rfl⟩
  cases signature <;> simp [encodeBody]

/-! ## The extrinsic -/

/-- An extrinsic whose body fits the `u32` length prefix is read back from its encoding, whatever
follows it. -/
theorem readsAt_decode (hpayload : (payloadCodec addressCodec signatureCodec extraCodec).Canonical)
    (hcall : callCodec.Canonical) (x : UncheckedExtrinsic Address Call Signature Extra)
    (hx : (encodeBody addressCodec signatureCodec extraCodec callCodec x).length < 2 ^ 32)
    (o : Nat) :
    ReadsAt (decode compact addressCodec signatureCodec extraCodec callCodec) o
      (encode compact addressCodec signatureCodec extraCodec callCodec x) x := by
  set body := encodeBody addressCodec signatureCodec extraCodec callCodec x with hbody
  have hencode : encode compact addressCodec signatureCodec extraCodec callCodec x =
      compact.encode body.length ++ ([] ++ (body ++ ([] ++ ([] ++ [])))) := by
    simp only [encode, ← hbody, Nat.mod_eq_of_lt hx, List.nil_append, List.append_nil]
  rw [hencode]
  -- the two lengths the input reports are read into the list's property, for the check
  refine readsAt_of_reads (((compact.readsAt o hx).reads _).bind_eq <|
    (reads_remainingLen _ _).bind fun beforeLength =>
      ((readsAt_decodeBody hpayload hcall x _).reads _).bind_eq <|
        (reads_remainingLen _ _).bind fun afterLength =>
          (reads_lift (v := ()) (fun data hdata => ?_) _).bind_eq ((readsAt_pure _ x).reads _))
  obtain ⟨⟨-, -, rfl⟩, hle, rfl⟩ := hdata
  rw [checkLengthPrefix_eq_ok]
  simp only [← hbody, List.length_nil, Nat.add_zero] at hle ⊢
  omega

/-- A decoded extrinsic was read from exactly its encoding. -/
theorem spans_decode (hpayload : (payloadCodec addressCodec signatureCodec extraCodec).Canonical)
    (hcall : callCodec.Canonical) :
    Spans (decode compact addressCodec signatureCodec extraCodec callCodec) fun _ x w =>
      w = encode compact addressCodec signatureCodec extraCodec callCodec x := by
  refine (compact.spans.bind fun expectedLength => spans_remainingLen.bind
    fun beforeLength => (spans_decodeBody hpayload hcall).within.bind fun extrinsic =>
      spans_remainingLen.bind fun afterLength => (spans_lift _).bind fun _ =>
        spans_pure extrinsic).imp ?_
  rintro c x _ ⟨n, _, _, rfl, ⟨hn, rfl⟩, _, _, _, rfl, ⟨rfl, rfl⟩, _, _, _, rfl, ⟨rfl, hwithin⟩,
    _, _, _, rfl, ⟨rfl, rfl⟩, _, _, _, rfl, ⟨hcheck, rfl⟩, rfl, rfl⟩
  have hle := hwithin (encodeBody_ne_nil x)
  rw [checkLengthPrefix_eq_ok] at hcheck
  simp only [Cursor.advance_data, Cursor.advance_offset, List.length_nil, Nat.add_zero] at hle hcheck
  -- the prefix is the number of bytes the body took
  have hlen : (encodeBody addressCodec signatureCodec extraCodec callCodec x).length = n := by
    omega
  rw [encode]
  simp only [hlen, Nat.mod_eq_of_lt hn, List.nil_append, List.append_nil]

end Codec

end Substrate.Runtime
