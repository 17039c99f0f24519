import DoubleArrayTrie.Trie.Basic

/-!
# Reading a key off its node

The last bytes of the key that ends at a node are found by going up from it: the label of a node is
its slot exclusive-or the offset of its parent, of which the low byte counts. The node may be any
number, so the way up can fail. The bytes are read one by one, or a buffer is filled with them from
right to left.

Who asks for so many bytes gets a buffer of that size first. A size is a word of 64 bits, and a buffer
may have half of them at most (`maxBuffer`); within that it is up to the memory (`Memory`) whether there
is room for it.

* `Trie.suffix`: the bytes in a new buffer.
* `Trie.suffixInto`: the bytes in a buffer that is there.
* `Trie.suffixOf`: the bytes of a match.
-/

namespace DoubleArrayTrie

/-- Why no such key ends at a node. -/
inductive SuffixFault where
  /-- The way up ends at the root, or at a free slot, before so many bytes are read. -/
  | pastRoot (length : Nat)
  /-- A number on the way is no slot. -/
  | outOfRange
  /-- No buffer has so many bytes. -/
  | capacityOverflow
  /-- There is no room for the buffer, which ends the program. -/
  | outOfMemory
deriving DecidableEq

/-- The fault in words, where it has any. -/
def SuffixFault.message? : SuffixFault → Option String
  | pastRoot length => some ("suffix of " ++ toString length ++ " bytes reaches past the root")
  | outOfRange | capacityOverflow | outOfMemory => none

/-- The largest size of a buffer. -/
def maxBuffer : Nat := 9223372036854775807

/-- What there is room for. -/
structure Memory where
  /-- Whether there is room for a buffer of so many bytes. -/
  room : Nat → Bool
  /-- A buffer of no bytes takes none. -/
  room_zero : room 0 = true

/-- There is room for any buffer. -/
def Memory.unlimited : Memory := ⟨fun _ => true, rfl⟩

namespace Pool

variable (c : Config) (p : Pool)

/-- The slot of that number, if there is one. -/
def slot? (i : Int) : Option Slot := if i < 0 then none else p.slots[i.toNat]?

/-- The low byte of a number. -/
def lowByte (i : Int) : UInt8 := UInt8.ofNat (i % 256).toNat

/-- The bytes read on so many steps up from a node, in front of those given. -/
def suffixOnto (length : Nat) : Nat → Int → Key → Except SuffixFault Key
  | 0, _, bytes => .ok bytes
  | n + 1, node, bytes =>
      if node ≤ 0 then .error (.pastRoot length)
      else
        match p.slot? node with
        | none => .error .outOfRange
        | some s =>
            match p.slot? s.check with
            | none => .error .outOfRange
            | some parent =>
                suffixOnto length n s.check
                  ((lowByte (c.encoding.offset parent.base) ^^^ lowByte node) :: bytes)

/-- The last `length` bytes of the key that ends at a node. -/
def suffix (node : Int) (length : Nat) : Except SuffixFault Key :=
  p.suffixOnto c length length node []

/-- The buffer when so many of its first bytes are written, the last of them first, on the way up
from a node. -/
def fill : Nat → Int → Key → Except SuffixFault Key
  | 0, _, buffer => .ok buffer
  | n + 1, node, buffer =>
      if node ≤ 0 then .error (.pastRoot buffer.length)
      else
        match p.slot? node with
        | none => .error .outOfRange
        | some s =>
            match p.slot? s.check with
            | none => .error .outOfRange
            | some parent =>
                fill n s.check
                  (buffer.set n (lowByte (c.encoding.offset parent.base) ^^^ lowByte node))

end Pool

namespace Trie

/-- The last `length` bytes of the key that ends at a node, in a new buffer. -/
def suffix (t : Trie) (node : Int) (length : Nat) (memory : Memory := .unlimited) :
    Except SuffixFault Key :=
  if maxBuffer < length then .error .capacityOverflow
  else if memory.room length then t.pool.suffix t.config node length
  else .error .outOfMemory

/-- A buffer filled with the last bytes of the key that ends at a node. -/
def suffixInto (t : Trie) (node : Int) (buffer : Key) : Except SuffixFault Key :=
  t.pool.fill t.config buffer.length node buffer

/-- The bytes that the length of a match counts. There are fewer of them than slots, and a buffer for
them is taken to be there. -/
def suffixOf (t : Trie) (m : Match) : Except SuffixFault Key :=
  t.pool.suffix t.config m.node m.length

end Trie

end DoubleArrayTrie
