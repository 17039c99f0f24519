import DoubleArrayTrie.Options
import DoubleArrayTrie.Pool.Ring

/-!
# Taking slots and giving them back

A slot that is taken leaves the free list of its block, a slot that is given back joins it before
the slots after the head. The number of free slots of the block changes by one, and where it comes
to or leaves `0` or `1` the block changes its ring. A block that gets a slot back is worth a search
again: its trials start over, and its bound goes up to the one for its number of free slots.
-/

namespace DoubleArrayTrie

namespace Pool

/-- The block of a slot. -/
def blockOf (e : Nat) : Nat := e / blockSize

/-- Links the free slots around slot `e` to each other. -/
def bridgeFree (p : Pool) (e : Nat) : Pool :=
  let prev := p.prevFree e
  let next := p.nextFree e
  (p.setCheck prev (-(next : Int))).setBase next (-(prev : Int))

/-- Links slot `e` in after the free slot `h`. -/
def spliceFree (p : Pool) (e h : Nat) : Pool :=
  let next := p.nextFree h
  ((p.setNode e (-(h : Int)) (-(next : Int))).setCheck h (-(e : Int))).setBase next (-(e : Int))

/-- Takes slot `e` out of the free list of its block. The slot after it becomes the head if it
was. -/
def unlinkFree (p : Pool) (e : Nat) : Pool :=
  let r := p.block (blockOf e)
  let next := p.nextFree e
  let p := p.modifyBlock (blockOf e) fun r' => { r' with free := r.free - 1 }
  if r.free = 1 then p
  else if r.head = e then
    (p.bridgeFree e).modifyBlock (blockOf e) fun r => { r with head := next }
  else p.bridgeFree e

/-- Takes slot `e`. -/
def take (c : Config) (p : Pool) (e : Nat) : Pool :=
  let b := blockOf e
  let p := p.unlinkFree e
  let r := p.block b
  if b = 0 then p
  else if r.free = 0 then p.moveBlock b .closed .full
  else if r.free = 1 ∧ r.trials ≠ c.maxTrial then p.moveBlock b .opened .closed
  else p

/-- Puts slot `e` on the free list of its block, after the head. -/
def linkFree (p : Pool) (e : Nat) : Pool :=
  let r := p.block (blockOf e)
  if r.free = 0 then
    (p.modifyBlock (blockOf e) fun r' => { r' with free := r.free + 1, head := e }).setNode e
      (-(e : Int)) (-(e : Int))
  else
    (p.modifyBlock (blockOf e) fun r' => { r' with free := r.free + 1 }).spliceFree e r.head.toNat

/-- Puts slot `e` back. -/
def insertFree (c : Config) (p : Pool) (e : Nat) : Pool :=
  let b := blockOf e
  let p := p.linkFree e
  let r := p.block b
  if r.free = 1 then
    if b = 0 then p else p.moveBlock b .full .closed
  else
    let p :=
      if b ≠ 0 ∧ (r.free = 2 ∨ r.trials = c.maxTrial) then p.moveBlock b .closed .opened else p
    p.modifyBlock b fun r => { r with trials := 0 }

/-- Raises the bound of a block to the one for its number of free slots. -/
def relaxReject (p : Pool) (b : Nat) : Pool :=
  let bound := p.reject (p.block b).free.toNat
  if (p.block b).reject < bound then p.modifyBlock b fun r => { r with reject := bound } else p

/-- Gives slot `e` back. -/
def release (c : Config) (p : Pool) (e : Nat) : Pool :=
  ((p.insertFree c e).relaxReject (blockOf e)).modifySlot e
    fun s => { s with sibling := 0, child := 0 }

/-- Takes slot `e` for a child of `parent` with this label. -/
def occupy (c : Config) (p : Pool) (e : Nat) (label : UInt8) (parent : Nat) : Pool :=
  (p.take c e).setNode e (c.encoding.fresh label) parent

end Pool

end DoubleArrayTrie
