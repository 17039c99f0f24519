import DoubleArrayTrie.Image.Integer
import DoubleArrayTrie.Trie.Basic

/-!
# The header of an image

An image starts with a header of 100 bytes. It holds five integers of 4 bytes (the flags word, the
heads of the full, closed and open rings, the number of trials) and ten of 8 bytes (the capacity,
the size, the number of records of each part, the number of bytes of each part).

* `Header.corruption?`: the first rule that a header breaks. The rules on numbers come before those
  on the parts, which are checked part by part.
-/

namespace DoubleArrayTrie

/-- The size of a part: the number of its records and of their bytes. -/
structure Extent where
  count : Int
  length : Int
deriving DecidableEq

/-- The integers at the start of an image. -/
structure Header where
  flags : Int
  fullHead : Int
  closedHead : Int
  openHead : Int
  maxTrial : Int
  capacity : Int
  size : Int
  nodes : Extent
  links : Extent
  blocks : Extent
  rejects : Extent
deriving DecidableEq

namespace Header

/-- The number of bytes of a header. -/
def byteSize : Nat := 100

/-- The integers of 4 bytes, in order. -/
def narrow (h : Header) : List Int := [h.flags, h.fullHead, h.closedHead, h.openHead, h.maxTrial]

/-- The integers of 8 bytes, in order. They follow the others. -/
def wide (h : Header) : List Int :=
  [h.capacity, h.size, h.nodes.count, h.links.count, h.blocks.count, h.rejects.count,
    h.nodes.length, h.links.length, h.blocks.length, h.rejects.length]

/-- The bytes of a header. -/
def encode (h : Header) : List UInt8 :=
  h.narrow.flatMap (Integer.encode 4) ++ h.wide.flatMap (Integer.encode 8)

/-- The size of a part of a pool. -/
def extent (p : Pool) (part : Part) : Extent := ⟨p.recordCount part, p.byteSize part⟩

/-- The header of the image of a trie. -/
def ofTrie (t : Trie) : Header where
  flags := t.config.flags
  fullHead := t.pool.fullHead
  closedHead := t.pool.closedHead
  openHead := t.pool.openHead
  maxTrial := t.config.maxTrial
  capacity := t.pool.capacity
  size := t.pool.size
  nodes := extent t.pool .nodes
  links := extent t.pool .links
  blocks := extent t.pool .blocks
  rejects := extent t.pool .rejects

/-- The integer in so many bytes at an offset. -/
def integerAt (bytes : Array UInt8) (offset width : Nat) : Int :=
  Integer.decode (bytes.extract offset (offset + width)).toList

/-- The header at the start of an image that is long enough. -/
def decode (bytes : Array UInt8) : Header :=
  let narrowAt := fun i => integerAt bytes (4 * i) 4
  let wideAt := fun i => integerAt bytes (20 + 8 * i) 8
  { flags := narrowAt 0
    fullHead := narrowAt 1
    closedHead := narrowAt 2
    openHead := narrowAt 3
    maxTrial := narrowAt 4
    capacity := wideAt 0
    size := wideAt 1
    nodes := ⟨wideAt 2, wideAt 6⟩
    links := ⟨wideAt 3, wideAt 7⟩
    blocks := ⟨wideAt 4, wideAt 8⟩
    rejects := ⟨wideAt 5, wideAt 9⟩ }

/-- The number of records that a part must have. -/
def requiredCount (h : Header) : Part → Int
  | .nodes | .links => h.capacity
  | .blocks => h.capacity / blockSize
  | .rejects => rejectCount

/-- The number of bytes that a part must have. -/
def requiredLength (h : Header) (part : Part) : Int := h.requiredCount part * part.recordSize

/-- The number of bytes of an image with this header. -/
def imageSize (h : Header) : Int :=
  byteSize + h.nodes.length + h.links.length + h.blocks.length + h.rejects.length

/-- The rules on the size of a part, as the rule and whether it holds. -/
def partRules (h : Header) (part : Part) (x : Extent) : List (Corruption × Bool) :=
  [(.recordCount, x.count == h.requiredCount part),
    (.sectionLength, x.length == h.requiredLength part)]

/-- The rule on a head, which names a block in use. -/
def headRule (h : Header) (head : Int) : Corruption × Bool :=
  (.ringHead, decide (0 ≤ head ∧ head < h.size / blockSize))

/-- The rules for the header of an image with so many bytes, in the order in which they are
checked. -/
def rules (h : Header) (total : Nat) : List (Corruption × Bool) :=
  [(.capacity,
      decide (blockSize ≤ h.capacity ∧ h.capacity % blockSize = 0 ∧ h.capacity ≤ 2147483648)),
    (.size, decide (blockSize ≤ h.size ∧ h.size % blockSize = 0 ∧ h.size ≤ h.capacity)),
    h.headRule h.fullHead, h.headRule h.closedHead, h.headRule h.openHead] ++
  h.partRules .nodes h.nodes ++ h.partRules .links h.links ++
  h.partRules .blocks h.blocks ++ h.partRules .rejects h.rejects ++
  [(.truncated, decide (h.imageSize ≤ total))]

/-- The first rule that the header of an image with so many bytes breaks. -/
def corruption? (h : Header) (total : Nat) : Option Corruption :=
  ((h.rules total).find? fun rule => !rule.2).map (·.1)

end Header

end DoubleArrayTrie
