/-!
# Bytes as text

Bytes are read as UTF-8. Where they are not, the longest part that a character could start with, or
else a single byte, is read as the replacement character U+FFFD.
-/

namespace DoubleArrayTrie

namespace Utf8

/-- The character that stands for bytes that are not UTF-8. -/
def replacement : Char := '\uFFFD'

/-- A character of which some bytes were read: how many are to come, the bounds of the next one, and
the bits read so far. -/
structure Pending where
  owed : Nat
  lo : UInt8
  hi : UInt8
  bits : Nat

/-- What the first byte of a character says: the bytes to come, unless it stands alone. -/
def lead (b : UInt8) : Char ⊕ Pending :=
  if b ≤ 0x7F then .inl (Char.ofNat b.toNat)
  else if b < 0xC2 then .inl replacement
  else if b ≤ 0xDF then .inr ⟨1, 0x80, 0xBF, b.toNat % 32⟩
  else if b ≤ 0xEF then
    .inr ⟨2, if b = 0xE0 then 0xA0 else 0x80, if b = 0xED then 0x9F else 0xBF, b.toNat % 16⟩
  else if b ≤ 0xF4 then
    .inr ⟨3, if b = 0xF0 then 0x90 else 0x80, if b = 0xF4 then 0x8F else 0xBF, b.toNat % 8⟩
  else .inl replacement

/-- What a byte adds to the text where a character starts, and the character it leaves open. -/
def start (b : UInt8) : List Char × Option Pending :=
  match lead b with
  | .inl ch => ([ch], none)
  | .inr q => ([], some q)

/-- What a byte adds to the text, and the character it leaves open. A byte that the open character
cannot have ends it and starts another. -/
def step (open? : Option Pending) (b : UInt8) : List Char × Option Pending :=
  match open? with
  | none => start b
  | some q =>
      if q.lo ≤ b ∧ b ≤ q.hi then
        let bits := q.bits * 64 + b.toNat % 64
        if q.owed ≤ 1 then ([Char.ofNat bits], none)
        else ([], some ⟨q.owed - 1, 0x80, 0xBF, bits⟩)
      else
        let (text, next?) := start b
        (replacement :: text, next?)

/-- The text of the bytes that follow, with a character open. -/
def decodeAfter (open? : Option Pending) : List UInt8 → List Char
  | [] => if open?.isSome then [replacement] else []
  | b :: bytes =>
      let (text, next?) := step open? b
      text ++ decodeAfter next? bytes

/-- The text of the bytes. -/
def decode (bytes : List UInt8) : List Char := decodeAfter none bytes

end Utf8

end DoubleArrayTrie
