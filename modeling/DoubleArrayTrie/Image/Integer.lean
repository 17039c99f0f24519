/-!
# Integers as bytes

Images hold integers in two's complement, the low byte first.

* `decode_encode`: an integer that fits into its bytes is read back.
-/

namespace DoubleArrayTrie

namespace Integer

/-- The lowest bytes of an integer, the low byte first. -/
def encode : Nat → Int → List UInt8
  | 0, _ => []
  | n + 1, i => UInt8.ofNat (i % 256).toNat :: encode n (i / 256)

/-- The number whose bytes these are, when there is no sign. -/
def decodeNat : List UInt8 → Nat
  | [] => 0
  | b :: bytes => b.toNat + 256 * decodeNat bytes

/-- The number of integers that fit into so many bytes. -/
def modulus : Nat → Nat
  | 0 => 1
  | n + 1 => 256 * modulus n

/-- The integer whose bytes these are. -/
def decode (bytes : List UInt8) : Int := Int.bmod (decodeNat bytes) (modulus bytes.length)

@[simp] theorem length_encode (n : Nat) (i : Int) : (encode n i).length = n := by
  induction n generalizing i with
  | zero => rfl
  | succ n ih => simp [encode, ih]

theorem modulus_pos (n : Nat) : 0 < modulus n := by
  induction n with
  | zero => exact Nat.one_pos
  | succ n ih => exact Nat.mul_pos (by decide) ih

theorem decodeNat_encode (n : Nat) (i : Int) : (decodeNat (encode n i) : Int) = i % modulus n := by
  induction n generalizing i with
  | zero => exact (Int.emod_one i).symm
  | succ n ih =>
      have hbyte : ((UInt8.ofNat (i % 256).toNat).toNat : Int) = i % 256 := by
        simp only [UInt8.toNat_ofNat']
        omega
      have hsplit : i % ((256 : Int) * modulus n) = i % 256 + 256 * (i / 256 % modulus n) := by
        rw [Int.emod_def, Int.emod_def i, Int.emod_def (i / 256),
          ← Int.ediv_ediv_of_nonneg (by decide), Int.mul_sub, Int.mul_assoc]
        omega
      simp only [encode, decodeNat, modulus, Int.natCast_add, Int.natCast_mul, hbyte, ih]
      exact hsplit.symm

/-- **An integer that fits is read back.** -/
theorem decode_encode {n : Nat} {i : Int} (hlo : -(modulus n : Int) ≤ 2 * i)
    (hhi : 2 * i < modulus n) : decode (encode n i) = i := by
  have hpos := modulus_pos n
  rw [decode, length_encode, decodeNat_encode, Int.bmod_def, Int.emod_emod]
  by_cases h : 0 ≤ i
  · rw [Int.emod_eq_of_lt h (by omega)]
    split <;> omega
  · have hwrap : i % (modulus n : Int) = i + modulus n := by
      rw [← Int.add_emod_right]
      exact Int.emod_eq_of_lt (by omega) (by omega)
    rw [hwrap]
    split <;> omega

end Integer

end DoubleArrayTrie
