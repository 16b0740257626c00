import Mathlib

/-! # A binary counter as the positions of its one bits

Adding one to `n` carries through its trailing ones (`addBit_bitIndices`), losing a bit per carry
and gaining one (`countOnes_succ_add_trailingOnes`).
-/

namespace BitCounter

def countOnesAux : Nat → Nat → Nat
  | 0, _ => 0
  | fuel + 1, n => n % 2 + countOnesAux fuel (n / 2)

def countOnes (n : Nat) : Nat := countOnesAux n n

def trailingOnesAux : Nat → Nat → Nat
  | 0, _ => 0
  | fuel + 1, n => if n % 2 = 1 then trailingOnesAux fuel (n / 2) + 1 else 0

/-- `trailing_ones`: the number of one bits below the lowest zero bit. -/
def trailingOnes (n : Nat) : Nat := trailingOnesAux n n

/-- Adding a one bit at `h` to a counter held as its one bits' positions, lowest first, carrying up;
the new positions and the number of carries. -/
def addBit : Nat → List Nat → List Nat × Nat
  | h, [] => ([h], 0)
  | h, p :: rest =>
      if p = h then
        let (bits, carries) := addBit (h + 1) rest
        (bits, carries + 1)
      else (h :: p :: rest, 0)

example : countOnes 13 = 3 := by decide
example : trailingOnes 11 = 2 := by decide
example : addBit 0 [0, 1, 3] = ([2, 3], 2) := by decide

/-! ## Counting bits -/

theorem countOnesAux_eq_length : ∀ (fuel n : Nat), n < 2 ^ fuel →
    countOnesAux fuel n = n.bitIndices.length
  | 0, n, h => by
    have hn : n = 0 := by omega
    simp [countOnesAux, hn]
  | fuel + 1, n, h => by
    rw [Nat.pow_succ] at h
    rw [countOnesAux, countOnesAux_eq_length fuel (n / 2) (by omega)]
    -- the lowest bit, then the others one position down
    obtain ⟨m, rfl | rfl⟩ := Nat.even_or_odd' n
    · rw [Nat.bitIndices_two_mul, List.length_map, show 2 * m / 2 = m by omega]
      omega
    · rw [Nat.bitIndices_two_mul_add_one, List.length_cons, List.length_map,
        show (2 * m + 1) / 2 = m by omega]
      omega

variable (n : Nat)

theorem countOnes_eq_length : countOnes n = n.bitIndices.length :=
  countOnesAux_eq_length n n Nat.lt_two_pow_self

theorem countOnes_le : countOnes n ≤ n := by
  have hsum := Nat.sum_map_two_pow_bitIndices n
  have hle := List.length_le_sum_of_one_le (n.bitIndices.map (2 ^ ·))
    (fun i hi => by
      obtain ⟨b, -, rfl⟩ := List.mem_map.mp hi
      exact Nat.one_le_two_pow)
  rw [List.length_map, hsum] at hle
  rw [countOnes_eq_length]
  exact hle

/-- The digits a fuel of `fuel` reads are all of them once the number is below `2 ^ fuel`. -/
theorem trailingOnesAux_congr : ∀ (fuel fuel' n : Nat), n < 2 ^ fuel → n < 2 ^ fuel' →
    trailingOnesAux fuel n = trailingOnesAux fuel' n
  | 0, fuel', n, h, _ => by
    have hn : n = 0 := by omega
    cases fuel' <;> simp [trailingOnesAux, hn]
  | fuel + 1, 0, n, _, h' => by
    have hn : n = 0 := by omega
    simp [trailingOnesAux, hn]
  | fuel + 1, fuel' + 1, n, h, h' => by
    rw [Nat.pow_succ] at h h'
    rw [trailingOnesAux, trailingOnesAux,
      trailingOnesAux_congr fuel fuel' (n / 2) (by omega) (by omega)]

theorem trailingOnes_two_mul (m : Nat) : trailingOnes (2 * m) = 0 := by
  rcases Nat.eq_zero_or_pos m with rfl | hm
  · rfl
  · obtain ⟨fuel, hfuel⟩ : ∃ fuel, 2 * m = fuel + 1 := ⟨2 * m - 1, by omega⟩
    rw [trailingOnes, hfuel, trailingOnesAux, if_neg (by omega)]

theorem trailingOnes_two_mul_add_one (m : Nat) :
    trailingOnes (2 * m + 1) = trailingOnes m + 1 := by
  have hm : m < 2 ^ (2 * m) := Nat.lt_two_pow_self.trans_le
    (Nat.pow_le_pow_right (by omega) (by omega))
  rw [trailingOnes, trailingOnesAux, if_pos (by omega), trailingOnes,
    show (2 * m + 1) / 2 = m by omega, trailingOnesAux_congr _ _ m hm Nat.lt_two_pow_self]

/-! ## Adding a bit -/

/-- Each carry takes one bit away, and the bit the carries end at is added. -/
theorem length_addBit : ∀ (h : Nat) (bits : List Nat),
    (addBit h bits).1.length + (addBit h bits).2 = bits.length + 1
  | h, [] => rfl
  | h, p :: rest => by
    rw [addBit]
    split
    · have ih := length_addBit (h + 1) rest
      dsimp only
      rw [List.length_cons]
      omega
    · rfl

theorem map_add_map_add (bits : List Nat) (a b : Nat) :
    (bits.map (· + a)).map (· + b) = bits.map (· + (a + b)) := by
  simp only [List.map_map, Function.comp_def, Nat.add_assoc]

/-- Adding one to `n`, with the positions of its bits moved up by `h`: the carries run through
the trailing ones of `n`. -/
theorem addBit_bitIndices (n h : Nat) :
    addBit h (n.bitIndices.map (· + h)) = ((n + 1).bitIndices.map (· + h), trailingOnes n) := by
  induction n using Nat.strong_induction_on generalizing h with
  | _ n ih =>
    obtain ⟨m, rfl | rfl⟩ := Nat.even_or_odd' n
    · -- an even number: its lowest bit is zero and takes the new bit
      rw [Nat.bitIndices_two_mul, map_add_map_add, trailingOnes_two_mul,
        Nat.bitIndices_two_mul_add_one, List.map_cons, map_add_map_add, Nat.zero_add]
      cases hbits : m.bitIndices.map (· + (1 + h)) with
      | nil => rfl
      | cons p rest =>
        have hp : p ∈ m.bitIndices.map (· + (1 + h)) := by rw [hbits]; exact List.mem_cons_self
        obtain ⟨b, -, rfl⟩ := List.mem_map.mp hp
        rw [addBit, if_neg (by omega)]
    · -- an odd number: its lowest bit is carried, and the rest is `m` plus one
      rw [Nat.bitIndices_two_mul_add_one, List.map_cons, map_add_map_add, Nat.zero_add, addBit,
        if_pos rfl, Nat.add_comm 1 h, ih m (by omega) (h + 1),
        show 2 * m + 1 + 1 = 2 * (m + 1) by omega, Nat.bitIndices_two_mul, map_add_map_add,
        trailingOnes_two_mul_add_one, Nat.add_comm 1 h]

theorem addBit_zero_bitIndices :
    addBit 0 n.bitIndices = ((n + 1).bitIndices, trailingOnes n) := by
  simpa using addBit_bitIndices n 0

/-- Adding one to `n` turns its trailing ones to zeros and one zero to a one. -/
theorem countOnes_succ_add_trailingOnes :
    countOnes (n + 1) + trailingOnes n = countOnes n + 1 := by
  have hlen := length_addBit 0 n.bitIndices
  rw [addBit_zero_bitIndices] at hlen
  rw [countOnes_eq_length, countOnes_eq_length]
  exact hlen

end BitCounter
