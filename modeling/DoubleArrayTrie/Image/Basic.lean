import DoubleArrayTrie.Image.Header

/-!
# Images

The image of a trie is its header, followed by its four parts without gaps: the words of the slots,
the labels of the slots, the blocks, and the bounds. An image is read back by `Trie.ofImage?`, which
accepts it only if the header is consistent and fits the length, the options are valid, and the root
is that of a trie in the encoding that is asked for. Bytes after the last part are ignored.
-/

namespace DoubleArrayTrie

/-! ### Writing -/

namespace Image

/-- The words of the slots. -/
def nodeBytes (slots : Array Slot) : List UInt8 :=
  slots.toList.flatMap fun s => Integer.encode 4 s.base ++ Integer.encode 4 s.check

/-- The labels of the slots. -/
def linkBytes (slots : Array Slot) : List UInt8 :=
  slots.toList.flatMap fun s => [s.sibling, s.child]

def blockBytes (blocks : Array Block) : List UInt8 :=
  blocks.toList.flatMap fun b =>
    Integer.encode 4 b.prev ++ Integer.encode 4 b.next ++ Integer.encode 2 b.free ++
      Integer.encode 2 b.reject ++ Integer.encode 4 b.trials ++ Integer.encode 4 b.head

def rejectBytes (rejects : Array Int) : List UInt8 :=
  rejects.toList.flatMap (Integer.encode 2)

/-- The four parts, which follow the header. -/
def partsBytes (slots : Array Slot) (blocks : Array Block) (rejects : Array Int) : List UInt8 :=
  nodeBytes slots ++ linkBytes slots ++ blockBytes blocks ++ rejectBytes rejects

/-- A byte string with the bytes from an offset on overwritten. -/
def overwrite (offset : Nat) (bytes content : List UInt8) : List UInt8 :=
  content.take offset ++ bytes ++ content.drop (offset + bytes.length)

end Image

/-- The bytes of a part of a pool. -/
def Pool.partBytes (p : Pool) : Part → List UInt8
  | .nodes => Image.nodeBytes p.slots
  | .links => Image.linkBytes p.slots
  | .blocks => Image.blockBytes p.blocks
  | .rejects => Image.rejectBytes p.rejects

/-- The number of bytes of the four parts together. -/
def Pool.totalBytes (p : Pool) : Nat :=
  p.byteSize .nodes + p.byteSize .links + p.byteSize .blocks + p.byteSize .rejects

/-- The image of a trie. -/
def Trie.image (t : Trie) : List UInt8 :=
  (Header.ofTrie t).encode ++ Image.partsBytes t.pool.slots t.pool.blocks t.pool.rejects

/-- The number of bytes of the image. -/
def Trie.imageSize (t : Trie) : Nat := Header.byteSize + t.pool.totalBytes

/-! ### Reading -/

/-- The slot whose words and labels are at these offsets. -/
def Slot.ofBytes (bytes : Array UInt8) (node link : Nat) : Slot where
  base := Header.integerAt bytes node 4
  check := Header.integerAt bytes (node + 4) 4
  sibling := bytes.getD link 0
  child := bytes.getD (link + 1) 0

/-- The block at this offset. -/
def Block.ofBytes (bytes : Array UInt8) (offset : Nat) : Block where
  prev := Header.integerAt bytes offset 4
  next := Header.integerAt bytes (offset + 4) 4
  free := Header.integerAt bytes (offset + 8) 2
  reject := Header.integerAt bytes (offset + 10) 2
  trials := Header.integerAt bytes (offset + 12) 4
  head := Header.integerAt bytes (offset + 16) 4

/-- The pool of an image with this header. -/
def Pool.ofBytes (h : Header) (backing : Backing) (bytes : Array UInt8) : Pool :=
  let slotCount := h.capacity.toNat
  let blockCount := slotCount / blockSize
  let nodes := Header.byteSize
  let links := nodes + slotCount * Part.nodes.recordSize
  let blocks := links + slotCount * Part.links.recordSize
  let rejects := blocks + blockCount * Part.blocks.recordSize
  { slots := Array.ofFn fun i : Fin slotCount =>
      Slot.ofBytes bytes (nodes + i * Part.nodes.recordSize) (links + i * Part.links.recordSize)
    blocks := Array.ofFn fun i : Fin blockCount =>
      Block.ofBytes bytes (blocks + i * Part.blocks.recordSize)
    rejects := Array.ofFn fun i : Fin rejectCount =>
      Header.integerAt bytes (rejects + i * Part.rejects.recordSize) 2
    fullHead := h.fullHead.toNat
    closedHead := h.closedHead.toNat
    openHead := h.openHead.toNat
    size := h.size.toNat
    backing }

/-- The encoding whose root this slot is. -/
def Slot.rootEncoding? (s : Slot) : Option Encoding :=
  if s.check ≠ -1 then none
  else if s.base = Encoding.standard.rootBase then some .standard
  else if s.base = Encoding.reduced.rootBase then some .reduced
  else none

/-- The backing of a trie that is loaded in this way. -/
def LoadMode.backing : LoadMode → Backing
  | .copy => .heap
  | .mapped | .shared => .mapped

/-- The trie whose image the bytes start with, in the encoding that is asked for. -/
def Trie.ofImage? (e : Encoding) (mode : LoadMode) (image : List UInt8) : Except Error Trie :=
  let bytes := image.toArray
  if bytes.size < Header.byteSize then .error (.corrupt .shortHeader)
  else
    let h := Header.decode bytes
    match h.corruption? bytes.size with
    | some cause => .error (.corrupt cause)
    | none =>
        match Options.ofFlags h.flags h.maxTrial with
        | .error err => .error err
        | .ok o =>
            let root := Slot.ofBytes bytes Header.byteSize 0
            match root.rootEncoding? with
            | none => .error (.corrupt .root)
            | some found =>
                if found = e then
                  .ok ⟨{ o with encoding := e }, .ofBytes h mode.backing bytes⟩
                else .error (.encodingMismatch e found)

end DoubleArrayTrie
