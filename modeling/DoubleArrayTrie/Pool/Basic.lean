import DoubleArrayTrie.Event

/-!
# Slots, blocks and pools

A *pool* is the store of a double-array trie. It holds an array of *slots*, grouped into *blocks* of
256. A slot in use belongs to a node of the trie: `check` is the slot of its parent, `base` says
where its children are, `child` is the label of its first child and `sibling` the label of the child
of its parent that follows. A free slot has a negative `check` and lies on the *free list* of its
block, which is circular: `base` and `check` are the negated numbers of the slots before and after.

Numbers in records are integers, since an image may bring any; the numbers of slots and of blocks by
which a record is looked up are naturals.

A pool also says where its records live, for each of its four parts (`Backing`): on the heap, or in a
file that they are mapped from. Growth moves a part to the heap before it makes it larger, and leaves
what the file held of it behind. The bounds never grow and stay where they are.

* `slot_modifySlot`, `block_modifyBlock`: what a record is after a write.
-/

namespace DoubleArrayTrie

/-- The number of slots in a block. -/
def blockSize : Nat := 256

/-- The number of bounds of a pool: one for each number of free slots from `0` to `256`. -/
def rejectCount : Nat := 257

/-- A slot of the double array. -/
@[ext] structure Slot where
  base : Int := 0
  check : Int := 0
  /-- The label of the next child of the parent, `0` at the end. -/
  sibling : UInt8 := 0
  /-- The label of the first child, `0` also for a terminal and where there is none. -/
  child : UInt8 := 0
deriving DecidableEq, Inhabited

/-- What is kept about the 256 slots of a block. -/
structure Block where
  /-- The block before this one in its ring. -/
  prev : Int := 0
  /-- The block after this one in its ring. -/
  next : Int := 0
  /-- The number of free slots. -/
  free : Int := 256
  /-- The smallest number of children known not to fit. -/
  reject : Int := 257
  /-- The number of searches in vain since a slot was given back. -/
  trials : Int := 0
  /-- A free slot, where searches of the free list start. -/
  head : Int := 0
deriving DecidableEq, Inhabited

/-- Where the records of a part live. -/
inductive Home (α : Type) where
  | heap
  /-- They are mapped from a file. -/
  | mapped
  /-- They have moved to the heap; the file keeps those that it had then. -/
  | left (records : Array α)

/-- The part is mapped from a file. -/
def Home.isMapped {α : Type} : Home α → Bool
  | heap | left _ => false
  | mapped => true

/-- The records of a part as the file has them that it was mapped from, if there is one. -/
def Home.inFile {α : Type} (h : Home α) (records : Array α) : Option (Array α) :=
  match h with
  | heap => none
  | mapped => some records
  | left records => some records

/-- Where the records live after they have moved to the heap. -/
def Home.leave {α : Type} (h : Home α) (records : Array α) : Home α :=
  match h with
  | heap => heap
  | mapped => left records
  | left records => left records

/-- Where the records of a pool live, part by part. -/
structure Backing where
  nodes : Home Slot := .heap
  links : Home Slot := .heap
  blocks : Home Block := .heap
  rejects : Home Int := .heap

namespace Backing

/-- All parts are on the heap. -/
def heap : Backing := {}

/-- All parts are mapped from a file. -/
def mapped : Backing := ⟨.mapped, .mapped, .mapped, .mapped⟩

def isMapped (b : Backing) : Part → Bool
  | .nodes => b.nodes.isMapped
  | .links => b.links.isMapped
  | .blocks => b.blocks.isMapped
  | .rejects => b.rejects.isMapped

end Backing

/-- The store of a double-array trie. -/
structure Pool where
  slots : Array Slot
  blocks : Array Block
  /-- For a number of free slots, the smallest number of children that did not fit. -/
  rejects : Array Int
  /-- The head of the ring of full blocks, `0` if there is none. -/
  fullHead : Nat := 0
  closedHead : Nat := 0
  openHead : Nat := 0
  /-- The number of slots in blocks that are in use. -/
  size : Nat
  backing : Backing := .heap
  journal : Array Event := #[]

namespace Pool

/-! ### Records -/

/-- The number of slots, in use or not. -/
def capacity (p : Pool) : Nat := p.slots.size

def slot (p : Pool) (i : Nat) : Slot := p.slots.getD i {}

def block (p : Pool) (b : Nat) : Block := p.blocks.getD b {}

/-- The smallest number of children that did not fit into a block with `n` free slots. -/
def reject (p : Pool) (n : Nat) : Int := p.rejects.getD n 0

def modifySlot (p : Pool) (i : Nat) (f : Slot → Slot) : Pool :=
  { p with slots := p.slots.modify i f }

def modifyBlock (p : Pool) (b : Nat) (f : Block → Block) : Pool :=
  { p with blocks := p.blocks.modify b f }

def setReject (p : Pool) (n : Nat) (bound : Int) : Pool :=
  { p with rejects := p.rejects.setIfInBounds n bound }

def setBase (p : Pool) (i : Nat) (raw : Int) : Pool :=
  p.modifySlot i fun s => { s with base := raw }

def setCheck (p : Pool) (i : Nat) (parent : Int) : Pool :=
  p.modifySlot i fun s => { s with check := parent }

def setSibling (p : Pool) (i : Nat) (label : UInt8) : Pool :=
  p.modifySlot i fun s => { s with sibling := label }

def setChild (p : Pool) (i : Nat) (label : UInt8) : Pool :=
  p.modifySlot i fun s => { s with child := label }

/-- Writes both words of a slot. -/
def setNode (p : Pool) (i : Nat) (raw parent : Int) : Pool :=
  p.modifySlot i fun s => { s with base := raw, check := parent }

/-- Adds an event to the journal. -/
def log (p : Pool) (e : Event) : Pool := { p with journal := p.journal.push e }

@[simp] theorem capacity_modifySlot (p : Pool) (i : Nat) (f : Slot → Slot) :
    (p.modifySlot i f).capacity = p.capacity := by
  simp [capacity, modifySlot]

@[simp] theorem blocks_modifySlot (p : Pool) (i : Nat) (f : Slot → Slot) :
    (p.modifySlot i f).blocks = p.blocks := rfl

@[simp] theorem block_modifySlot (p : Pool) (i : Nat) (f : Slot → Slot) (b : Nat) :
    (p.modifySlot i f).block b = p.block b := rfl

@[simp] theorem rejects_modifySlot (p : Pool) (i : Nat) (f : Slot → Slot) :
    (p.modifySlot i f).rejects = p.rejects := rfl

@[simp] theorem size_modifySlot (p : Pool) (i : Nat) (f : Slot → Slot) :
    (p.modifySlot i f).size = p.size := rfl

@[simp] theorem slots_modifyBlock (p : Pool) (b : Nat) (f : Block → Block) :
    (p.modifyBlock b f).slots = p.slots := rfl

@[simp] theorem slot_modifyBlock (p : Pool) (b : Nat) (f : Block → Block) (i : Nat) :
    (p.modifyBlock b f).slot i = p.slot i := rfl

@[simp] theorem capacity_modifyBlock (p : Pool) (b : Nat) (f : Block → Block) :
    (p.modifyBlock b f).capacity = p.capacity := rfl

@[simp] theorem size_blocks_modifyBlock (p : Pool) (b : Nat) (f : Block → Block) :
    (p.modifyBlock b f).blocks.size = p.blocks.size := by
  simp [modifyBlock]

@[simp] theorem rejects_modifyBlock (p : Pool) (b : Nat) (f : Block → Block) :
    (p.modifyBlock b f).rejects = p.rejects := rfl

@[simp] theorem size_modifyBlock (p : Pool) (b : Nat) (f : Block → Block) :
    (p.modifyBlock b f).size = p.size := rfl

/-- A slot after a write is the changed one if it was written, and the same otherwise. -/
theorem slot_modifySlot (p : Pool) (i : Nat) (f : Slot → Slot) (j : Nat) :
    (p.modifySlot i f).slot j = if i = j ∧ j < p.capacity then f (p.slot j) else p.slot j := by
  unfold slot modifySlot capacity
  by_cases hj : j < p.slots.size
  · rw [Array.getD_eq_getD_getElem?, Array.getD_eq_getD_getElem?,
      Array.getElem?_eq_getElem (by simpa using hj), Array.getElem?_eq_getElem hj,
      Array.getElem_modify]
    by_cases hij : i = j
    · simp [hij, hj]
    · simp [hij]
  · rw [if_neg fun h => hj h.2, Array.getD_eq_getD_getElem?, Array.getD_eq_getD_getElem?,
      Array.getElem?_eq_none (by simpa using hj), Array.getElem?_eq_none (by simpa using hj)]

/-- A block after a write is the changed one if it was written, and the same otherwise. -/
theorem block_modifyBlock (p : Pool) (b : Nat) (f : Block → Block) (d : Nat) :
    (p.modifyBlock b f).block d =
      if b = d ∧ d < p.blocks.size then f (p.block d) else p.block d := by
  unfold block modifyBlock
  by_cases hd : d < p.blocks.size
  · rw [Array.getD_eq_getD_getElem?, Array.getD_eq_getD_getElem?,
      Array.getElem?_eq_getElem (by simpa using hd), Array.getElem?_eq_getElem hd,
      Array.getElem_modify]
    by_cases hbd : b = d
    · simp [hbd, hd]
    · simp [hbd]
  · rw [if_neg fun h => hd h.2, Array.getD_eq_getD_getElem?, Array.getD_eq_getD_getElem?,
      Array.getElem?_eq_none (by simpa using hd), Array.getElem?_eq_none (by simpa using hd)]

/-! ### Free lists -/

/-- The slot before `e` on the free list of its block. -/
def prevFree (p : Pool) (e : Nat) : Nat := (-(p.slot e).base).toNat

/-- The slot after `e` on the free list of its block. -/
def nextFree (p : Pool) (e : Nat) : Nat := (-(p.slot e).check).toNat

/-- Makes the slots from `lo` to `hi` into one free list, in ascending order. -/
def threadFree (p : Pool) (lo hi : Nat) : Pool :=
  (List.range' lo (hi + 1 - lo)).foldl
    (fun p i =>
      p.setNode i (-((if i = lo then hi else i - 1 : Nat) : Int))
        (-((if i = hi then lo else i + 1 : Nat) : Int)))
    p

/-- The pool of a trie without keys: the root in slot `0`, all other slots of block `0` free. -/
def empty (rootBase : Int) : Pool :=
  let bare : Pool :=
    { slots := Array.replicate blockSize {}
      blocks := #[{ free := 255, head := 1 }]
      rejects := Array.ofFn fun i : Fin rejectCount => (i.val : Int) + 1
      size := blockSize }
  (bare.setNode 0 rootBase (-1)).threadFree 1 255

/-! ### What is in use -/

/-- The number of blocks in use. -/
def blocksInUse (p : Pool) : Nat := p.size / blockSize

/-- The number of free slots in the blocks in use, as a word of 64 bits: an image may bring negative
numbers. -/
def freeSlots (p : Pool) : Nat :=
  ((List.range p.blocksInUse).foldl (fun total b => total + (p.block b).free) 0
    % 18446744073709551616).toNat

/-- The root and all slots that belong to a node, in ascending order. -/
def usedSlots (p : Pool) : List Nat :=
  (List.range p.size).filter fun i => i == 0 || decide (0 ≤ (p.slot i).check)

/-- The bounds that a search has made smaller, with their numbers of free slots. -/
def loweredRejects (p : Pool) : List (Nat × Int) :=
  ((List.range p.rejects.size).map fun n => (n, p.reject n)).filter fun (n, bound) =>
    bound != (n : Int) + 1

/-- Whether any part is still mapped from a file. -/
def isMapped (p : Pool) : Bool := [Part.nodes, .links, .blocks, .rejects].any p.backing.isMapped

/-- The number of records of a part. -/
def recordCount (p : Pool) : Part → Nat
  | .nodes | .links => p.slots.size
  | .blocks => p.blocks.size
  | .rejects => p.rejects.size

/-- The number of bytes of a part. -/
def byteSize (p : Pool) (part : Part) : Nat := p.recordCount part * part.recordSize

/-- The same records on the heap, with a journal of its own. -/
def copy (p : Pool) : Pool := { p with backing := .heap, journal := #[] }

end Pool

end DoubleArrayTrie
