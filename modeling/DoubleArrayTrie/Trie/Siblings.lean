import DoubleArrayTrie.Trie.Basic

/-!
# Chains of siblings

The labels of the children of a node form a chain: the node names the first one, and the slot of
each child names the next. A label `0` that is named ends the chain, so the terminal can only come
first. In an ordered trie the labels ascend; in the others a new label comes first, but after the
terminal.

* `Pool.chain` is the list of the labels, and `insertLabel` says where a new one belongs.
* `Pool.linkChild` and `Pool.unlinkChild` change the chain in place.
-/

namespace DoubleArrayTrie

/-- The most children that a node can have. -/
def maxChildren : Nat := 256

/-- A chain with a new label: after the terminal and, in an ordered trie, after the labels that are
not above it. -/
def insertLabel (ordered : Bool) (label : UInt8) : List UInt8 → List UInt8
  | [] => [label]
  | l :: ls =>
      if l = 0 ∨ ordered = true ∧ l ≤ label then l :: insertLabel ordered label ls
      else label :: l :: ls

namespace Pool

/-- At most so many labels of the chain at offset `k`, from a label on. -/
def chainFrom (p : Pool) (k : Nat) : Nat → UInt8 → List UInt8
  | 0, _ => []
  | n + 1, label =>
      let next := (p.slot (k ^^^ label.toNat)).sibling
      label :: if next = 0 then [] else chainFrom p k n next

/-- The labels of the children of node `n`, which has children, at offset `k`. -/
def chain (p : Pool) (n k : Nat) : List UInt8 := p.chainFrom k maxChildren (p.slot n).child

/-- The last label of a chain below the given one, from a label below it on. -/
def lastBelow (p : Pool) (k : Nat) (label : UInt8) : Nat → UInt8 → UInt8
  | 0, l => l
  | n + 1, l =>
      let next := (p.slot (k ^^^ l.toNat)).sibling
      if next ≠ 0 ∧ next < label then lastBelow p k label n next else l

/-- The label of a chain that the given one comes after, from a label on. -/
def before? (p : Pool) (k : Nat) (label : UInt8) : Nat → UInt8 → Option UInt8
  | 0, _ => none
  | n + 1, l =>
      let next := (p.slot (k ^^^ l.toNat)).sibling
      if next = label then some l else if next = 0 then none else before? p k label n next

/-- Puts a new label into the chain of node `n`, whose children are at offset `k`. -/
def linkChild (ordered : Bool) (p : Pool) (n k : Nat) (label : UInt8) (hasChildren : Bool) : Pool :=
  let first := (p.slot n).child
  if hasChildren ∧ (if ordered then first < label else first = 0) then
    let l := if ordered then p.lastBelow k label maxChildren first else first
    let next := (p.slot (k ^^^ l.toNat)).sibling
    (p.setSibling (k ^^^ l.toNat) label).setSibling (k ^^^ label.toNat) next
  else
    (p.setChild n label).setSibling (k ^^^ label.toNat) first

/-- Takes a label out of the chain of node `n`, whose children are at offset `k`. -/
def unlinkChild (p : Pool) (n k : Nat) (label : UInt8) : Pool :=
  let first := (p.slot n).child
  let next := (p.slot (k ^^^ label.toNat)).sibling
  if first = label then p.setChild n next
  else
    match p.before? k label maxChildren first with
    | none => p
    | some l => p.setSibling (k ^^^ l.toNat) next

end Pool

end DoubleArrayTrie
