import DoubleArrayTrie.Pool.Basic

/-!
# Rings of blocks

Each block but block `0`, which holds the root, is on one of three circular lists: *open* blocks
have two or more free slots and are worth a search, *closed* ones have one, or were searched in vain
too often, *full* ones have none. A ring is known by its head, where `0` stands for the empty ring.
-/

namespace DoubleArrayTrie

/-- The circular lists of blocks. -/
inductive Ring where
  | opened
  | closed
  | full
deriving DecidableEq

namespace Pool

/-- The first block of a ring, `0` if it has none. -/
def head (p : Pool) : Ring → Nat
  | .opened => p.openHead
  | .closed => p.closedHead
  | .full => p.fullHead

def setHead (p : Pool) (r : Ring) (b : Nat) : Pool :=
  match r with
  | .opened => { p with openHead := b }
  | .closed => { p with closedHead := b }
  | .full => { p with fullHead := b }

@[simp] theorem head_modifySlot (p : Pool) (i : Nat) (f : Slot → Slot) (r : Ring) :
    (p.modifySlot i f).head r = p.head r := by
  cases r <;> rfl

@[simp] theorem head_modifyBlock (p : Pool) (b : Nat) (f : Block → Block) (r : Ring) :
    (p.modifyBlock b f).head r = p.head r := by
  cases r <;> rfl

@[simp] theorem slots_setHead (p : Pool) (r : Ring) (b : Nat) : (p.setHead r b).slots = p.slots := by
  cases r <;> rfl

@[simp] theorem blocks_setHead (p : Pool) (r : Ring) (b : Nat) :
    (p.setHead r b).blocks = p.blocks := by
  cases r <;> rfl

@[simp] theorem rejects_setHead (p : Pool) (r : Ring) (b : Nat) :
    (p.setHead r b).rejects = p.rejects := by
  cases r <;> rfl

@[simp] theorem size_setHead (p : Pool) (r : Ring) (b : Nat) : (p.setHead r b).size = p.size := by
  cases r <;> rfl

@[simp] theorem block_setHead (p : Pool) (r : Ring) (b d : Nat) :
    (p.setHead r b).block d = p.block d := by
  cases r <;> rfl

theorem head_setHead (p : Pool) (r s : Ring) (b : Nat) :
    (p.setHead r b).head s = if r = s then b else p.head s := by
  cases r <;> cases s <;> rfl

/-- The block after `b` in its ring. -/
def nextBlock (p : Pool) (b : Nat) : Nat := (p.block b).next.toNat

/-- The block before `b` in its ring. -/
def prevBlock (p : Pool) (b : Nat) : Nat := (p.block b).prev.toNat

def setNextBlock (p : Pool) (b c : Nat) : Pool := p.modifyBlock b fun r => { r with next := c }

def setPrevBlock (p : Pool) (b c : Nat) : Pool := p.modifyBlock b fun r => { r with prev := c }

/-- Links the blocks around block `b` to each other. -/
def bridge (p : Pool) (b : Nat) : Pool :=
  let prev := p.prevBlock b
  let next := p.nextBlock b
  (p.setNextBlock prev next).setPrevBlock next prev

/-- Links block `b` in before block `h`. -/
def splice (p : Pool) (b h : Nat) : Pool :=
  let last := p.prevBlock h
  (((p.setPrevBlock b last).setNextBlock b h).setNextBlock last b).setPrevBlock h b

/-- Takes block `b` out of ring `r`, where `alone` says that it is the only one. The block after it
becomes the head if it was. -/
def detach (p : Pool) (b : Nat) (r : Ring) (alone : Bool) : Pool :=
  if alone then p.setHead r 0
  else
    let next := p.nextBlock b
    if b = p.head r then (p.bridge b).setHead r next else p.bridge b

/-- Puts block `b` before the head of ring `r` and makes it the head. -/
def attach (p : Pool) (b : Nat) (r : Ring) (isEmpty : Bool) : Pool :=
  let p := if isEmpty then (p.setPrevBlock b b).setNextBlock b b else p.splice b (p.head r)
  p.setHead r b

/-- Moves block `b` from one ring to the front of another. -/
def moveBlock (p : Pool) (b : Nat) (r s : Ring) : Pool :=
  let alone := b == p.nextBlock b
  let isEmpty := p.head s == 0
  (p.detach b r alone).attach b s isEmpty

end Pool

end DoubleArrayTrie
