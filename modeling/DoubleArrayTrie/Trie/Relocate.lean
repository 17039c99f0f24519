import DoubleArrayTrie.Pool.Place
import DoubleArrayTrie.Pool.FreeList
import DoubleArrayTrie.Trie.Siblings

/-!
# Conflicts over a slot

A node that gets a child with a new label may find the slot of that child taken by a child of
another node, the *owner*. Then the children of one of the two move to another offset: those of the
node, with the new child among them, if it had fewer than the owner before, and those of the owner
otherwise. A child that moves takes its word along, and its own children are told of its new slot.

The node that asks may itself be a child of the owner and move with its siblings; `yieldSlot` keeps
track of it, so that the new child names the slot where its parent is in the end.
-/

namespace DoubleArrayTrie

namespace Pool

/-- Room for the children with these labels: the slot for the first label. -/
def place (c : Config) (p : Pool) (labels : List UInt8) : Pool × Nat :=
  match labels with
  | [] | [_] => p.placeOne c
  | labels => p.placeFor c labels

/-- Names `e` as the parent of the children at offset `k`, a chain that starts with `first`. -/
def adopt (p : Pool) (e k : Nat) (first : UInt8) : Pool :=
  (p.chainFrom k maxChildren first).foldl (fun p l => p.setCheck (k ^^^ l.toNat) e) p

/-- Moves the word of slot `old`, a child with this label, to slot `new`, and its children with
it. The word of a terminal is a value and has no children. -/
def carry (c : Config) (p : Pool) (old new : Nat) (label : UInt8) : Pool :=
  let raw := (p.slot old).base
  let p := p.setBase new raw
  if label = 0 ∨ c.encoding.holdsValue raw then p
  else
    match c.encoding.offset? raw with
    | none => p
    | some k =>
        let first := (p.slot old).child
        (p.setChild new first).adopt new k first

/-- The labels of a chain, each with the one that follows or `0`. -/
def withNext (labels : List UInt8) : List (UInt8 × UInt8) :=
  labels.zip (labels.tail ++ [0])

/-- Takes the slot of child `label` of node `n` at offset `k` and names the sibling after it. -/
def settle (c : Config) (p : Pool) (n k : Nat) (label next : UInt8) : Pool :=
  (p.occupy c (k ^^^ label.toNat) label n).setSibling (k ^^^ label.toNat) next

/-- Moves the children of node `n` with these labels from offset `k` to offset `k'`. The child with
label `wanted` is new and has nothing to move. -/
def moveWith (c : Config) (n k k' : Nat) (wanted : UInt8) (labels : List UInt8) (p : Pool) : Pool :=
  (withNext labels).foldl
    (fun p (label, next) =>
      let p := p.settle c n k' label next
      if label = wanted then p
      else
        (p.carry c (k ^^^ label.toNat) (k' ^^^ label.toNat) label).release c (k ^^^ label.toNat))
    p

/-- A request for a slot: the node that asks, the offset of its children and the new label. -/
structure Request where
  node : Nat
  offset : Nat
  label : UInt8

/-- The slot that is asked for. -/
def Request.slot (r : Request) : Nat := r.offset ^^^ r.label.toNat

/-- Moves one child of `owner` from offset `k` to offset `k'`. The slot that it leaves is freed, or
goes to the node that asks for it. If the child is that node, the request goes on from its new
slot. -/
def yieldSlot (c : Config) (owner k k' : Nat) (p : Pool) (r : Request) (label next : UInt8) :
    Pool × Request :=
  let old := k ^^^ label.toNat
  let new := k' ^^^ label.toNat
  let p := (p.settle c owner k' label next).carry c old new label
  let r := if old = r.node then { r with node := new } else r
  if old = r.slot then
    let p := p.linkChild c.ordered r.node r.offset r.label true
    ((p.setChild old 0).setNode old (c.encoding.fresh r.label) r.node, r)
  else (p.release c old, r)

/-- Moves the children of `owner` with these labels from offset `k` to offset `k'`, and gives the
slot asked for to the node that asks. -/
def moveAway (c : Config) (owner k k' : Nat) (labels : List UInt8) (p : Pool) (r : Request) :
    Pool :=
  ((withNext labels).foldl
    (fun (p, r) (label, next) => p.yieldSlot c owner k k' r label next) (p, r)).1

/-- Settles a request for a slot that a child of another node is in: returns the slot of the new
child. -/
def relocate (c : Config) (p : Pool) (r : Request) : Pool × Nat :=
  let owner := (p.slot r.slot).check.toNat
  let k := p.offsetOf c owner
  let mine := p.chain r.node r.offset
  let theirs := p.chain owner k
  if mine.length < theirs.length then
    let labels := insertLabel c.ordered r.label mine
    let first := labels.headD 0
    let (p, e) := p.place c labels
    let k' := e ^^^ first.toNat
    let p := if first = r.label then p.setChild r.node r.label else p
    let p := p.setBase r.node (c.encoding.ofOffset k')
    (p.moveWith c r.node r.offset k' r.label labels, k' ^^^ r.label.toNat)
  else
    let (p, e) := p.place c theirs
    let k' := e ^^^ (theirs.headD 0).toNat
    let p := p.setBase owner (c.encoding.ofOffset k')
    (p.moveAway c owner k k' theirs r, r.slot)

end Pool

end DoubleArrayTrie
