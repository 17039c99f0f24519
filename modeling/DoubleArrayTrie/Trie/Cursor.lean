import DoubleArrayTrie.Trie.Basic

/-!
# Going from key to key

A *cursor* stands at a node that ends a stored key. The first key below a node is found by going
down along first children, the next key by going up to the first node that has a sibling and down
again from there. So a node comes before the nodes below it, and siblings come in the order of their
chain.
-/

namespace DoubleArrayTrie

/-- A position in an enumeration. -/
structure Cursor where
  /-- The node that ends the key. -/
  node : Nat
  /-- How far the node is below the node where the enumeration started. -/
  depth : Nat
  value : Int32
deriving DecidableEq

namespace Pool

variable (c : Config) (p : Pool)

/-- Goes down from node `n` to its child with label `l`, from there to its first child and so on,
until a node names no child. -/
def descend : Nat → UInt8 → Nat → Nat → Nat × Nat
  | 0, _, n, depth => (n, depth)
  | fuel + 1, l, n, depth =>
      if l = 0 then (n, depth)
      else
        let m := p.offsetOf c n ^^^ l.toNat
        descend fuel (p.slot m).child m (depth + 1)

/-- The first key at or below node `n`. The chain of the root starts with the label `0`, whose slot
is that of the root itself and holds no key, so there the first child is the one after it. -/
def firstKey? (n depth : Nat) : Option Cursor :=
  let child := (p.slot n).child
  let l := if n = 0 then (p.slot (p.offsetOf c 0 ^^^ child.toNat)).sibling else child
  if n = 0 ∧ l = 0 then none
  else
    let (m, depth) := p.descend c p.capacity l n depth
    some ⟨m, depth, Int32.ofInt (p.slot (p.valueSlot c m)).base⟩

/-- Goes up from node `n` at a depth until there is a next label: returns it, the node that has it
among its children, and the depth of that node. The label given is tried first. -/
def climb (root : Nat) : Nat → UInt8 → Nat → Option (UInt8 × Nat × Nat)
  | 0, l, n => if l ≠ 0 then some (l, n, 0) else none
  | depth + 1, l, n =>
      if l ≠ 0 then some (l, n, depth + 1)
      else if n = root then none
      else climb root depth (p.slot n).sibling (p.slot n).check.toNat

/-- The key after the one at the cursor, at or below node `root`. -/
def nextKey? (root : Nat) (k : Cursor) : Option Cursor :=
  let n := k.node
  let l :=
    if c.encoding.holdsValue (p.slot n).base then 0 else (p.slot (p.offsetOf c n)).sibling
  match p.climb root k.depth l n with
  | none => none
  | some (l, m, depth) => p.firstKey? c (p.offsetOf c m ^^^ l.toNat) (depth + 1)

end Pool

end DoubleArrayTrie
