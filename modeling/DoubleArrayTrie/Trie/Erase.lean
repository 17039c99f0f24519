import DoubleArrayTrie.Pool.FreeList
import DoubleArrayTrie.Trie.Siblings

/-!
# Erasing keys

A key that is erased gives back the slot of its value, and with it each node above that is left
without children. No other slot changes its owner.
-/

namespace DoubleArrayTrie

namespace Pool

/-- Gives back slot `e` and, while it has no siblings, its parent, at most so many slots. -/
def prune (c : Config) : Nat → Pool → Nat → Pool
  | 0, p, _ => p
  | fuel + 1, p, e =>
      let n := (p.slot e).check.toNat
      let k := p.offsetOf c n
      if (p.slot (k ^^^ (p.slot n).child.toNat)).sibling ≠ 0 then
        (p.unlinkChild n k (UInt8.ofNat (k ^^^ e))).release c e
      else prune c fuel (p.release c e) n

/-- Erases a key and returns what was stored for it. A key has a node for each of its bytes, and at
most a terminal besides. -/
def erase (c : Config) (p : Pool) (key : Key) : Pool × Lookup :=
  match p.walk c 0 key with
  | none => (p, .absent)
  | some n =>
      match p.valueAt c n with
      | .found v => (p.prune c (key.length + 1) (p.valueSlot c n), .found v)
      | other => (p, other)

end Pool

namespace Trie

/-- Erases a key and returns what was stored for it. -/
def erase (t : Trie) (key : Key) : Trie × Lookup :=
  match t with
  | ⟨c, p⟩ =>
      let (p, answer) := p.erase c key
      (⟨c, p⟩, answer)

end Trie

end DoubleArrayTrie
