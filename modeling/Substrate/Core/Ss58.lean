import Mathlib

/-! # SS58 addresses

The SS58 codec of `src/primitives/core/src/crypto.rs`: base58 of a prefix with the 14-bit format,
the key, and two bytes of `ss58hash`, both parameters. `format_is_allowed` is `!is_reserved()`.
-/

namespace Substrate.Core

/-- The errors of `from_ss58check_with_version`. -/
inductive PublicError where
  | badBase58
  | badLength
  | invalidPrefix
  | formatNotAllowed
  | invalidChecksum
  deriving DecidableEq, Repr

/-- Base58: `bs58::encode` and `bs58::decode`, inverse to each other. -/
structure Base58 (Str : Type) where
  encode : List UInt8 → Str
  decode : Str → Option (List UInt8)
  decode_encode : ∀ bytes, decode (encode bytes) = some bytes
  encode_decode : ∀ s bytes, decode s = some bytes → encode bytes = s

/-- `ss58hash`: a digest of 64 bytes. -/
structure Ss58Hash where
  digest : List UInt8 → List UInt8
  length_digest : ∀ data, (digest data).length = 64

/-- A public key: the `LEN` bytes of `as_ref`. -/
structure PublicKey (len : Nat) where
  bytes : List UInt8
  length_bytes : bytes.length = len
  deriving DecidableEq

def PublicKey.fromSlice (len : Nat) (data : List UInt8) : Option (PublicKey len) :=
  if h : data.length = len then some ⟨data, h⟩ else none

/-- The two-byte prefix of an identifier: `01aaaaaa bbcccccc` for the little-endian
`aaaaaabb 00cccccc`. -/
def twoByteIdent (ident : UInt16) : List UInt8 :=
  -- the upper six bits of the lower byte
  let first := (ident &&& 0b0000_0000_1111_1100).toUInt8 >>> 2
  -- the lower two bits of the lower byte on top of the upper byte
  let second := (ident >>> 8).toUInt8 ||| ((ident &&& 0b0000_0000_0000_0011).toUInt8 <<< 6)
  [first ||| 0b01000000, second]

/-- The prefix `to_ss58check_with_version` writes: the identifier masked to 14 bits, in one byte
below 64, in two from 64 on. -/
def identBytes (version : UInt16) : List UInt8 :=
  let ident := version &&& 0b0011_1111_1111_1111
  if ident ≤ 63 then [ident.toUInt8] else twoByteIdent ident

def decodeIdent (d0 d1 : UInt8) : Except PublicError (Nat × UInt16) :=
  if d0 ≤ 63 then .ok (1, d0.toUInt16)
  else if d0 ≤ 127 then
    let lower := (d0 <<< 2) ||| (d1 >>> 6)
    let upper := d1 &&& 0b00111111
    .ok (2, lower.toUInt16 ||| (upper.toUInt16 <<< 8))
  else .error .invalidPrefix

/-! ## The prefix, in numbers -/

section Prefix

variable {v : UInt16} {d0 d1 : UInt8}

theorem or_eq_add_of_lt {a b k : Nat} (hb : b < 2 ^ k) : 2 ^ k * a ||| b = 2 ^ k * a + b :=
  (Nat.two_pow_add_eq_or_of_lt hb a).symm

theorem mask_of_lt (h : v.toNat < 2 ^ 14) : v &&& 0b0011_1111_1111_1111 = v := by
  apply UInt16.toNat.inj
  rw [UInt16.toNat_and, show UInt16.toNat 0b0011_1111_1111_1111 = 2 ^ 14 - 1 from rfl,
    Nat.and_two_pow_sub_one_eq_mod, Nat.mod_eq_of_lt h]

theorem identBytes_of_lt (h : v.toNat < 64) : identBytes v = [v.toUInt8] := by
  have hsmall : v ≤ 63 := by
    rw [UInt16.le_iff_toNat_le]
    simp only [UInt16.reduceToNat]
    omega
  rw [identBytes, mask_of_lt (by omega), if_pos hsmall]

/-- The two bytes of an identifier below `2 ^ 14`: `64 + ⌊(v mod 256) / 4⌋`, then
`⌊v / 256⌋ + 64 · (v mod 4)`. -/
theorem twoByteIdent_eq (h : v.toNat < 2 ^ 14) :
    twoByteIdent v = [(64 + v.toNat % 256 / 4).toUInt8, (v.toNat / 256 + 64 * (v.toNat % 4)).toUInt8] := by
  rw [twoByteIdent]
  congr 1
  · apply UInt8.toNat.inj
    simp only [UInt8.toNat_or, UInt8.toNat_shiftRight, UInt16.toNat_toUInt8, UInt16.toNat_and,
      UInt8.toNat_ofNat']
    -- the six bits above the low two of the low byte, under the tag `0b01`
    have hsix : ((v.toNat &&& UInt16.toNat 252) % 2 ^ 8) >>> (UInt8.toNat 2 % 8) =
        v.toNat / 4 % 64 := by
      rw [Nat.mod_eq_of_lt (Nat.and_lt_two_pow _ (by decide)), show UInt8.toNat 2 % 8 = 2 from rfl,
        Nat.shiftRight_and_distrib, show UInt16.toNat 252 >>> 2 = 2 ^ 6 - 1 from rfl,
        Nat.and_two_pow_sub_one_eq_mod, Nat.shiftRight_eq_div_pow]
    rw [hsix, show UInt8.toNat 64 = 2 ^ 6 from rfl, Nat.or_two_pow_eq_add_of_lt (by omega)]
    omega
  · congr 1
    apply UInt8.toNat.inj
    simp only [UInt8.toNat_or, UInt8.toNat_shiftLeft, UInt16.toNat_toUInt8, UInt16.toNat_and,
      UInt16.toNat_shiftRight, UInt8.toNat_ofNat']
    -- the high byte, with the low two bits of the low byte on top
    have hhigh : v.toNat >>> (UInt16.toNat 8 % 16) % 2 ^ 8 = v.toNat / 256 := by
      rw [show UInt16.toNat 8 % 16 = 8 from rfl, Nat.shiftRight_eq_div_pow]
      omega
    have htwo : ((v.toNat &&& UInt16.toNat 3) % 2 ^ 8) <<< (UInt8.toNat 6 % 8) % 2 ^ 8 =
        2 ^ 6 * (v.toNat % 4) := by
      rw [show UInt16.toNat 3 = 2 ^ 2 - 1 from rfl, Nat.and_two_pow_sub_one_eq_mod,
        show UInt8.toNat 6 % 8 = 6 from rfl, Nat.shiftLeft_eq]
      omega
    rw [hhigh, htwo, Nat.or_comm, or_eq_add_of_lt (by omega)]
    omega

theorem identBytes_of_le (h0 : 64 ≤ v.toNat) (h1 : v.toNat < 2 ^ 14) :
    identBytes v = twoByteIdent v := by
  have hbig : ¬v ≤ 63 := by
    rw [UInt16.le_iff_toNat_le]
    simp only [UInt16.reduceToNat]
    omega
  rw [identBytes, mask_of_lt h1, if_neg hbig]

theorem decodeIdent_of_lt (h : d0.toNat < 64) : decodeIdent d0 d1 = .ok (1, d0.toUInt16) := by
  have hsmall : d0 ≤ 63 := by
    rw [UInt8.le_iff_toNat_le]
    simp only [UInt8.reduceToNat]
    omega
  rw [decodeIdent, if_pos hsmall]

theorem decodeIdent_of_ge (h : 128 ≤ d0.toNat) : decodeIdent d0 d1 = .error .invalidPrefix := by
  have hbig : ¬d0 ≤ 63 := by
    rw [UInt8.le_iff_toNat_le]
    simp only [UInt8.reduceToNat]
    omega
  have htag : ¬d0 ≤ 127 := by
    rw [UInt8.le_iff_toNat_le]
    simp only [UInt8.reduceToNat]
    omega
  rw [decodeIdent, if_neg hbig, if_neg htag]

/-- A first byte from 64 to 127 starts a two-byte prefix, read as `(d1 mod 64) · 256 + (d0 mod 64) ·
4 + ⌊d1 / 64⌋`. -/
theorem decodeIdent_of_le (h0 : 64 ≤ d0.toNat) (h1 : d0.toNat < 128) :
    decodeIdent d0 d1 =
      .ok (2, (d1.toNat % 64 * 256 + (d0.toNat % 64 * 4 + d1.toNat / 64)).toUInt16) := by
  have hbig : ¬d0 ≤ 63 := by
    rw [UInt8.le_iff_toNat_le]
    simp only [UInt8.reduceToNat]
    omega
  have htag : d0 ≤ 127 := by
    rw [UInt8.le_iff_toNat_le]
    simp only [UInt8.reduceToNat]
    omega
  rw [decodeIdent, if_neg hbig, if_pos htag]
  dsimp only
  congr 2
  apply UInt16.toNat.inj
  simp only [UInt16.toNat_or, UInt16.toNat_shiftLeft, UInt8.toNat_toUInt16, UInt8.toNat_or,
    UInt8.toNat_shiftLeft, UInt8.toNat_shiftRight, UInt8.toNat_and, UInt16.toNat_ofNat']
  have hd0 := d0.toNat_lt
  have hd1 := d1.toNat_lt
  -- the low byte is the six bits of `d0` above the top two bits of `d1`
  have hlower : d0.toNat <<< (UInt8.toNat 2 % 8) % 2 ^ 8 ||| d1.toNat >>> (UInt8.toNat 6 % 8) =
      d0.toNat % 64 * 4 + d1.toNat / 64 := by
    rw [show UInt8.toNat 2 % 8 = 2 from rfl, show UInt8.toNat 6 % 8 = 6 from rfl, Nat.shiftLeft_eq,
      Nat.shiftRight_eq_div_pow, show d0.toNat * 2 ^ 2 % 2 ^ 8 = 2 ^ 2 * (d0.toNat % 64) by omega,
      or_eq_add_of_lt (by omega)]
    omega
  have hupper : (d1.toNat &&& UInt8.toNat 63) <<< (UInt16.toNat 8 % 16) % 2 ^ 16 =
      2 ^ 8 * (d1.toNat % 64) := by
    rw [show UInt8.toNat 63 = 2 ^ 6 - 1 from rfl, Nat.and_two_pow_sub_one_eq_mod,
      show UInt16.toNat 8 % 16 = 8 from rfl, Nat.shiftLeft_eq]
    omega
  rw [hlower, hupper, Nat.or_comm, or_eq_add_of_lt (by omega)]
  omega

/-- The two-byte prefix of every identifier below `2 ^ 14` is read back as it, below 64 too. -/
theorem decodeIdent_twoByteIdent (h : v.toNat < 2 ^ 14) :
    ∃ d0 d1, twoByteIdent v = [d0, d1] ∧ decodeIdent d0 d1 = .ok (2, v) := by
  refine ⟨_, _, twoByteIdent_eq h, ?_⟩
  have hfirst : (64 + v.toNat % 256 / 4).toUInt8.toNat = 64 + v.toNat % 256 / 4 := by
    rw [UInt8.toNat_ofNat']
    omega
  have hsecond : (v.toNat / 256 + 64 * (v.toNat % 4)).toUInt8.toNat =
      v.toNat / 256 + 64 * (v.toNat % 4) := by
    rw [UInt8.toNat_ofNat']
    omega
  rw [decodeIdent_of_le (by omega) (by omega), hfirst, hsecond]
  congr 2
  apply UInt16.toNat.inj
  rw [UInt16.toNat_ofNat']
  -- with `v = 256 h + l`: the second byte holds `h` and `l mod 4`, the first `⌊l / 4⌋`
  have hhigh : (v.toNat / 256 + 64 * (v.toNat % 4)) % 64 = v.toNat / 256 := by omega
  have hlow : (v.toNat / 256 + 64 * (v.toNat % 4)) / 64 = v.toNat % 4 := by omega
  have hmid : (64 + v.toNat % 256 / 4) % 64 = v.toNat % 256 / 4 := by omega
  have hbyte : v.toNat % 256 / 4 * 4 + v.toNat % 4 = v.toNat % 256 := by omega
  rw [hhigh, hlow, hmid, hbyte]
  omega

/-- A two-byte prefix read as an identifier from 64 on is the one written for that identifier. -/
theorem twoByteIdent_of_decodeIdent {ident : UInt16} (h0 : 64 ≤ d0.toNat)
    (h : decodeIdent d0 d1 = .ok (2, ident)) : ident.toNat < 2 ^ 14 ∧ twoByteIdent ident = [d0, d1] := by
  have h1 : d0.toNat < 128 := by
    by_contra hge
    rw [decodeIdent_of_ge (by omega)] at h
    cases h
  rw [decodeIdent_of_le h0 h1] at h
  obtain ⟨-, rfl⟩ := Prod.mk.inj (Except.ok.inj h)
  have hd1 := d1.toNat_lt
  have hident : (d1.toNat % 64 * 256 + (d0.toNat % 64 * 4 + d1.toNat / 64)).toUInt16.toNat =
      d1.toNat % 64 * 256 + (d0.toNat % 64 * 4 + d1.toNat / 64) := by
    rw [UInt16.toNat_ofNat']
    omega
  refine ⟨by omega, ?_⟩
  rw [twoByteIdent_eq (by omega), hident]
  -- the identifier's low byte is `(d0 mod 64) · 4 + ⌊d1 / 64⌋`, its high byte `d1 mod 64`
  have hlow : (d1.toNat % 64 * 256 + (d0.toNat % 64 * 4 + d1.toNat / 64)) % 256 =
      d0.toNat % 64 * 4 + d1.toNat / 64 := by omega
  have hhigh : (d1.toNat % 64 * 256 + (d0.toNat % 64 * 4 + d1.toNat / 64)) / 256 = d1.toNat % 64 := by
    omega
  have hfour : (d1.toNat % 64 * 256 + (d0.toNat % 64 * 4 + d1.toNat / 64)) % 4 = d1.toNat / 64 := by
    omega
  have hquarter : (d0.toNat % 64 * 4 + d1.toNat / 64) / 4 = d0.toNat % 64 := by omega
  rw [hlow, hhigh, hfour, hquarter]
  congr 1
  · apply UInt8.toNat.inj
    rw [UInt8.toNat_ofNat']
    omega
  · congr 1
    apply UInt8.toNat.inj
    rw [UInt8.toNat_ofNat']
    omega

end Prefix

section Codec

variable {Str : Type} (b58 : Base58 Str) (hash : Ss58Hash) {len : Nat}

def toSs58checkWithVersion (key : PublicKey len) (version : UInt16) : Str :=
  let v := identBytes version ++ key.bytes
  b58.encode (v ++ (hash.digest v).take 2)

/-- `from_ss58check_with_version`; each `return Err` and `?` of the source is an early
`.error`. -/
def fromSs58checkWithVersion (isReserved : UInt16 → Bool) (s : Str) :
    Except PublicError (PublicKey len × UInt16) :=
  match b58.decode s with
  | none => .error .badBase58
  | some data =>
      match data with
      | d0 :: d1 :: _ =>
          match decodeIdent d0 d1 with
          | .error e => .error e
          | .ok (prefixLen, ident) =>
              if data.length ≠ prefixLen + len + 2 then .error .badLength
              else if isReserved ident then .error .formatNotAllowed
              else if (data.drop (len + prefixLen)).take 2 ≠
                  (hash.digest (data.take (len + prefixLen))).take 2 then .error .invalidChecksum
              else
                match PublicKey.fromSlice len ((data.drop prefixLen).take len) with
                | some result => .ok (result, ident)
                | none => .error .badLength
      | _ => .error .badLength

variable {isReserved : UInt16 → Bool} {key : PublicKey len} {ident : UInt16}

theorem length_checksum (data : List UInt8) : ((hash.digest data).take 2).length = 2 := by
  rw [List.length_take, hash.length_digest]
  rfl

theorem fromSlice_bytes (key : PublicKey len) : PublicKey.fromSlice len key.bytes = some key := by
  rw [PublicKey.fromSlice, dif_pos key.length_bytes]

theorem bytes_of_fromSlice {data : List UInt8} (h : PublicKey.fromSlice len data = some key) :
    key.bytes = data := by
  rw [PublicKey.fromSlice] at h
  split at h
  · cases h
    rfl
  · cases h

/-- Bytes that are a prefix read as an allowed identifier, a key, and the checksum of both are
accepted as that key and identifier. -/
theorem fromSs58checkWithVersion_of_decodeIdent {p rest : List UInt8} {d0 d1 : UInt8}
    (hdata : p ++ key.bytes ++ (hash.digest (p ++ key.bytes)).take 2 = d0 :: d1 :: rest)
    (hident : decodeIdent d0 d1 = .ok (p.length, ident)) (hallowed : isReserved ident = false) :
    fromSs58checkWithVersion b58 hash isReserved
      (b58.encode (p ++ key.bytes ++ (hash.digest (p ++ key.bytes)).take 2)) = .ok (key, ident) := by
  have hlen : (p ++ key.bytes ++ (hash.digest (p ++ key.bytes)).take 2).length = p.length + len + 2 := by
    rw [List.length_append, List.length_append, key.length_bytes, length_checksum]
  have hbody : len + p.length = (p ++ key.bytes).length := by
    rw [List.length_append, key.length_bytes, Nat.add_comm]
  rw [fromSs58checkWithVersion, b58.decode_encode]
  dsimp only
  rw [hdata]
  dsimp only
  rw [hident]
  dsimp only
  rw [← hdata, if_neg (not_not_intro hlen), if_neg (by rw [hallowed]; decide), hbody,
    List.take_left, List.drop_left, List.take_of_length_le (by rw [length_checksum]),
    if_neg (not_not_intro rfl), List.append_assoc, List.drop_left,
    List.take_left' key.length_bytes, fromSlice_bytes]

/-- What `from_ss58check_with_version` accepts: bytes that are a prefix read as an allowed
identifier, the key, and the checksum of both. -/
theorem fromSs58checkWithVersion_eq_ok {s : Str}
    (h : fromSs58checkWithVersion b58 hash isReserved s = .ok (key, ident)) :
    ∃ p d0 d1 rest, b58.decode s = some (p ++ key.bytes ++ (hash.digest (p ++ key.bytes)).take 2) ∧
      p ++ key.bytes ++ (hash.digest (p ++ key.bytes)).take 2 = d0 :: d1 :: rest ∧
      decodeIdent d0 d1 = .ok (p.length, ident) ∧ isReserved ident = false := by
  rw [fromSs58checkWithVersion] at h
  cases hs : b58.decode s with
  | none =>
    rw [hs] at h
    cases h
  | some data =>
    rw [hs] at h
    rcases data with _ | ⟨d0, _ | ⟨d1, rest⟩⟩
    · cases h
    · cases h
    · cases hident : decodeIdent d0 d1 with
      | error e =>
        simp only [hident] at h
        cases h
      | ok pr =>
        obtain ⟨prefixLen, ident'⟩ := pr
        simp only [hident] at h
        split_ifs at h with hlen hreserved hcheck
        cases hkey : PublicKey.fromSlice len ((d0 :: d1 :: rest).drop prefixLen |>.take len) with
        | none =>
          rw [hkey] at h
          cases h
        | some result =>
          rw [hkey] at h
          obtain ⟨rfl, rfl⟩ := Prod.mk.inj (Except.ok.inj h)
          -- the data is its first `prefixLen + len` bytes, prefix and key, then the checksum
          have hbody : (d0 :: d1 :: rest).take prefixLen ++ result.bytes =
              (d0 :: d1 :: rest).take (len + prefixLen) := by
            rw [bytes_of_fromSlice hkey, Nat.add_comm, List.take_add]
          have htail : (d0 :: d1 :: rest).drop (len + prefixLen) =
              ((d0 :: d1 :: rest).drop (len + prefixLen)).take 2 := by
            rw [List.take_of_length_le (by rw [List.length_drop]; omega)]
          have hdata : (d0 :: d1 :: rest).take prefixLen ++ result.bytes ++
              (hash.digest ((d0 :: d1 :: rest).take prefixLen ++ result.bytes)).take 2 =
                d0 :: d1 :: rest := by
            rw [hbody, ← of_not_not hcheck, ← htail, List.take_append_drop]
          refine ⟨_, d0, d1, rest, by rw [hdata], hdata, ?_, Bool.not_eq_true _ ▸ hreserved⟩
          rw [List.length_take, Nat.min_eq_left (by omega)]
          exact hident

/-- The prefix written for an identifier below `2 ^ 14` is read back as that identifier. -/
theorem decodeIdent_identBytes {v : UInt16} (hv : v.toNat < 2 ^ 14) (tail : List UInt8)
    (htail : tail ≠ []) :
    ∃ d0 d1 rest, identBytes v ++ tail = d0 :: d1 :: rest ∧
      decodeIdent d0 d1 = .ok ((identBytes v).length, v) := by
  by_cases hsmall : v.toNat < 64
  · -- one byte, followed by the first byte of the tail
    obtain ⟨d1, rest, rfl⟩ := List.exists_cons_of_ne_nil htail
    refine ⟨v.toUInt8, d1, rest, by rw [identBytes_of_lt hsmall]; rfl, ?_⟩
    have hbyte : v.toUInt8.toNat = v.toNat := by
      rw [UInt16.toNat_toUInt8]
      omega
    rw [identBytes_of_lt hsmall, decodeIdent_of_lt (by omega)]
    congr 2
    apply UInt16.toNat.inj
    rw [UInt8.toNat_toUInt16, hbyte]
  · obtain ⟨d0, d1, hbytes, hdecode⟩ := decodeIdent_twoByteIdent hv
    rw [identBytes_of_le (by omega) hv, hbytes]
    exact ⟨d0, d1, tail, rfl, hdecode⟩

/-- Every key and allowed format below `2 ^ 14` are read back from their address. -/
theorem fromSs58check_toSs58check (key : PublicKey len) {v : UInt16} (hv : v.toNat < 2 ^ 14)
    (hallowed : isReserved v = false) :
    fromSs58checkWithVersion b58 hash isReserved (toSs58checkWithVersion b58 hash key v) =
      .ok (key, v) := by
  have htail : key.bytes ++ (hash.digest (identBytes v ++ key.bytes)).take 2 ≠ [] := by
    intro hnil
    have hlen := congrArg List.length hnil
    rw [List.length_append, length_checksum] at hlen
    cases hlen
  obtain ⟨d0, d1, rest, hdata, hdecode⟩ := decodeIdent_identBytes hv _ htail
  rw [toSs58checkWithVersion]
  exact fromSs58checkWithVersion_of_decodeIdent b58 hash (by rw [List.append_assoc]; exact hdata)
    hdecode hallowed

/-- An accepted address is the one written for its key and format, or, below 64, the one with the
format in the two-byte prefix. -/
theorem toSs58check_of_fromSs58check {s : Str}
    (h : fromSs58checkWithVersion b58 hash isReserved s = .ok (key, ident)) :
    s = toSs58checkWithVersion b58 hash key ident ∨
      (ident.toNat < 64 ∧ s = b58.encode (twoByteIdent ident ++ key.bytes ++
        (hash.digest (twoByteIdent ident ++ key.bytes)).take 2)) := by
  obtain ⟨p, d0, d1, rest, hs, hdata, hdecode, -⟩ := fromSs58checkWithVersion_eq_ok b58 hash h
  have hencode := b58.encode_decode _ _ hs
  rcases Nat.lt_or_ge d0.toNat 64 with hone | htwo
  · -- a one-byte prefix is the one written
    rw [decodeIdent_of_lt hone] at hdecode
    obtain ⟨hlen, rfl⟩ := Prod.mk.inj (Except.ok.inj hdecode)
    obtain ⟨a, rfl⟩ := List.length_eq_one_iff.mp hlen.symm
    have ha : a = d0 := (List.cons.inj hdata).1
    subst ha
    have hident : identBytes a.toUInt16 = [a] := by
      rw [identBytes_of_lt (by rw [UInt8.toNat_toUInt16]; exact hone)]
      congr 1
      apply UInt8.toNat.inj
      rw [UInt16.toNat_toUInt8, UInt8.toNat_toUInt16]
      omega
    left
    rw [toSs58checkWithVersion, hident, ← hencode]
  · -- a two-byte prefix is the one written from 64 on
    have hlen : p.length = 2 := by
      rcases Nat.lt_or_ge d0.toNat 128 with hlt | hge
      · rw [decodeIdent_of_le htwo hlt] at hdecode
        exact (Prod.mk.inj (Except.ok.inj hdecode)).1.symm
      · rw [decodeIdent_of_ge hge] at hdecode
        cases hdecode
    obtain ⟨a, b, rfl⟩ := List.length_eq_two.mp hlen
    obtain ⟨ha, hb⟩ : a = d0 ∧ b = d1 := by
      simp only [List.cons_append, List.cons.injEq] at hdata
      exact ⟨hdata.1, hdata.2.1⟩
    subst ha hb
    obtain ⟨hbound, hbytes⟩ := twoByteIdent_of_decodeIdent htwo hdecode
    rcases Nat.lt_or_ge ident.toNat 64 with hsmall | hbig
    · right
      rw [hbytes, ← hencode]
      exact ⟨hsmall, rfl⟩
    · left
      rw [toSs58checkWithVersion, identBytes_of_le hbig hbound, hbytes, ← hencode]

/-- Below 64, the address with the format in the two-byte prefix is accepted too, and differs from
the one written. -/
theorem fromSs58check_twoByteIdent (key : PublicKey len) {v : UInt16} (hv : v.toNat < 64)
    (hallowed : isReserved v = false) :
    fromSs58checkWithVersion b58 hash isReserved (b58.encode (twoByteIdent v ++ key.bytes ++
        (hash.digest (twoByteIdent v ++ key.bytes)).take 2)) = .ok (key, v) ∧
      b58.encode (twoByteIdent v ++ key.bytes ++ (hash.digest (twoByteIdent v ++ key.bytes)).take 2) ≠
        toSs58checkWithVersion b58 hash key v := by
  obtain ⟨d0, d1, hbytes, hdecode⟩ := decodeIdent_twoByteIdent (show v.toNat < 2 ^ 14 by omega)
  refine ⟨fromSs58checkWithVersion_of_decodeIdent b58 hash (by rw [hbytes]; rfl)
    (by rw [hbytes]; exact hdecode) hallowed, ?_⟩
  -- the two byte strings differ in length, so their texts differ
  intro htext
  have hbytes' := congrArg b58.decode htext
  rw [toSs58checkWithVersion, b58.decode_encode, b58.decode_encode, identBytes_of_lt hv, hbytes]
    at hbytes'
  have hlen := congrArg List.length (Option.some.inj hbytes')
  simp only [List.length_append, List.length_cons, List.length_nil, length_checksum] at hlen
  omega

/-- Every key and allowed format below `2 ^ 14` is read back from its address; a format below 64 is
also accepted in the two-byte prefix, so such a key has two addresses. -/
theorem ss58check_roundtrip_but_two_addresses_below_64 :
    (∀ (key : PublicKey len) (v : UInt16), v.toNat < 2 ^ 14 → isReserved v = false →
      fromSs58checkWithVersion b58 hash isReserved (toSs58checkWithVersion b58 hash key v) =
        .ok (key, v)) ∧
    (∀ (s : Str) (key : PublicKey len) ident,
      fromSs58checkWithVersion b58 hash isReserved s = .ok (key, ident) →
        s = toSs58checkWithVersion b58 hash key ident ∨
          (ident.toNat < 64 ∧ s = b58.encode (twoByteIdent ident ++ key.bytes ++
            (hash.digest (twoByteIdent ident ++ key.bytes)).take 2))) ∧
    (∀ (key : PublicKey len) (v : UInt16), v.toNat < 64 → isReserved v = false →
      ∃ s, fromSs58checkWithVersion b58 hash isReserved s = .ok (key, v) ∧
        s ≠ toSs58checkWithVersion b58 hash key v) :=
  ⟨fun key _ hv hallowed => fromSs58check_toSs58check b58 hash key hv hallowed,
    fun _ _ _ h => toSs58check_of_fromSs58check b58 hash h,
    fun key _ hv hallowed => ⟨_, fromSs58check_twoByteIdent b58 hash key hv hallowed⟩⟩

end Codec

/-- Base58 taken as the identity on byte strings, which satisfies both laws. -/
def bytesBase58 : Base58 (List UInt8) :=
  ⟨id, some, fun _ => rfl, fun _ _ h => (Option.some.inj h).symm⟩

def zeroHash : Ss58Hash := ⟨fun _ => List.replicate 64 0, fun _ => List.length_replicate⟩

-- the format `0` with the prefix `0x40 0x00`: accepted, while the encoder writes `0x00`
example : fromSs58checkWithVersion bytesBase58 zeroHash (fun _ => false)
    ([0x40, 0x00] ++ List.replicate 32 0 ++ [0, 0]) =
      .ok (⟨List.replicate 32 0, List.length_replicate⟩, 0) := by decide

end Substrate.Core
