import DoubleArrayTrie.Pool.Growth

/-!
# Room for children

A single child may go to any free slot. Several children of one node need an offset at which the
slots of all their labels are free, and for them the open blocks are searched in the order of their
ring, a block along its free list.

A block that has no room learns from it: its bound on the number of children becomes the number
asked for, the bound for its number of free slots goes down to it, and it has had one more trial. A
block with as many trials as the options allow is closed.

* `placeOne` finds room for one child, `placeFor` for two or more.
-/

namespace DoubleArrayTrie

namespace Pool

/-- A free slot for a single child. Closed blocks are used up before open ones. -/
def placeOne (c : Config) (p : Pool) : Pool × Nat :=
  if p.closedHead ≠ 0 then (p, (p.block p.closedHead).head.toNat)
  else if p.openHead ≠ 0 then (p, (p.block p.openHead).head.toNat)
  else p.addBlock c

/-- Whether the slots of all labels are free when the first label is at slot `e`. Slot `e` itself
comes from a free list. -/
def fits (p : Pool) (e : Nat) : List UInt8 → Bool
  | [] => true
  | label :: labels =>
      labels.all fun l => decide ((p.slot ((e ^^^ label.toNat) ^^^ l.toNat)).check < 0)

/-- The first slot from `e` on along a free list at which the labels fit. The search ends before
`head`, or after as many slots as the number says. -/
def scanFree (p : Pool) (labels : List UInt8) (head : Nat) : Nat → Nat → Option Nat
  | 0, _ => none
  | n + 1, e =>
      if p.fits e labels then some e
      else if p.nextFree e = head then none
      else scanFree p labels head n (p.nextFree e)

/-- A slot of block `b` at which the labels fit. A block with too few free slots, or with a bound
that is not above the number of labels, is not searched. -/
def room? (p : Pool) (b : Nat) (labels : List UInt8) : Option Nat :=
  let r := p.block b
  if (labels.length : Int) ≤ r.free ∧ (labels.length : Int) < r.reject then
    p.scanFree labels r.head.toNat p.capacity r.head.toNat
  else none

/-- Lowers the bound for blocks with `k` free slots to `n`, if it is above. -/
def lowerReject (p : Pool) (k n : Nat) : Pool :=
  if (n : Int) < p.reject k then p.setReject k n else p

/-- What block `b` learns when `n` children have no room in it. -/
def learn (c : Config) (p : Pool) (b n : Nat) : Pool :=
  let r := p.block b
  let p := p.modifyBlock b fun r => { r with reject := n, trials := r.trials + 1 }
  let p := p.lowerReject r.free.toNat n
  if r.trials + 1 = c.maxTrial then p.moveBlock b .opened .closed else p

/-- Searches the open ring for room from block `b` to block `last`, at most as many blocks as the
first number says. A block with room starts its free list at the slot that was found. -/
def searchOpen (c : Config) (labels : List UInt8) (last : Int) :
    Nat → Nat → Pool → Pool × Option Nat
  | 0, _, p => (p, none)
  | n + 1, b, p =>
      match p.room? b labels with
      | some e => (p.modifyBlock b fun r => { r with head := e }, some e)
      | none =>
          let next := p.nextBlock b
          let p := p.learn c b labels.length
          if b = last then (p, none) else searchOpen c labels last n next p

/-- More blocks than a search can come to: each one is visited at most as often as its number of
trials, which has 32 bits, can go up. -/
def visitBound (p : Pool) : Nat := p.blocks.size * 4294967296

/-- Room for two or more children: the slot for the first label. -/
def placeFor (c : Config) (labels : List UInt8) (p : Pool) : Pool × Nat :=
  if p.openHead = 0 then p.addBlock c
  else
    match p.searchOpen c labels (p.block p.openHead).prev p.visitBound p.openHead with
    | (p, some e) => (p, e)
    | (p, none) => (p.log (.exhausted labels.length)).addBlock c

end Pool

end DoubleArrayTrie
