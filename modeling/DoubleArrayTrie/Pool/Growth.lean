import DoubleArrayTrie.Options
import DoubleArrayTrie.Pool.Ring

/-!
# New blocks

Blocks are put into use one after the other. When all slots are in use the arrays grow first, by the
step that the options ask for. The words of the slots, their labels and the blocks move to the heap at
that moment, each part if it is mapped from a file.
-/

namespace DoubleArrayTrie

namespace Pool

/-- Moves a part to the heap, if it is mapped. -/
def unmap (p : Pool) (part : Part) : Pool :=
  if p.backing.isMapped part then
    let p := p.log (.unmap part (p.byteSize part))
    match part with
    | .nodes => { p with backing.nodes := p.backing.nodes.leave p.slots }
    | .links => { p with backing.links := p.backing.links.leave p.slots }
    | .blocks => { p with backing.blocks := p.backing.blocks.leave p.blocks }
    | .rejects => { p with backing.rejects := p.backing.rejects.leave p.rejects }
  else p

/-- Enlarges the arrays of slots and blocks, whatever their new size is. That they may have so many slots
is checked by the program that asks for the room (`Access.reserve`). -/
def grow (c : Config) (p : Pool) : Pool :=
  let step := c.growth.step p.capacity
  let p := [Part.nodes, .links, .blocks].foldl unmap (p.log (.grow p.capacity (p.capacity + step)))
  { p with
    slots := p.slots ++ Array.replicate step {}
    blocks := p.blocks ++ Array.replicate (step / blockSize) {} }

/-- Makes the slots of the next block into its free list. -/
def threadBlock (p : Pool) : Pool :=
  let b := p.blocksInUse
  let start := p.size
  (p.modifyBlock b fun _ => { head := start }).threadFree start (start + (blockSize - 1))

/-- Puts the next block into use: all its slots are free, and it becomes the head of the open
ring. -/
def openBlock (p : Pool) : Pool :=
  let b := p.blocksInUse
  let p := p.threadBlock
  let p := p.attach b .opened (p.openHead == 0)
  ({ p with size := p.size + blockSize }).log (.addBlock b)

/-- Puts one more block into use and returns its first slot. -/
def addBlock (c : Config) (p : Pool) : Pool × Nat :=
  let start := p.size
  let p := if p.size = p.capacity then p.grow c else p
  (p.openBlock, start)

end Pool

end DoubleArrayTrie
