import DoubleArrayTrie.Encoding

/-!
# What a trie reports about itself

The parts of an image, how a trie is loaded, and the events that are written to a journal while a
trie grows, searches for room, and is saved and loaded.
-/

namespace DoubleArrayTrie

/-- The four arrays of records that make up an image, in this order. -/
inductive Part where
  /-- The words `base` and `check` of the slots. -/
  | nodes
  /-- The labels `sibling` and `child` of the slots. -/
  | links
  | blocks
  /-- The bounds by the number of free slots. -/
  | rejects
deriving DecidableEq

/-- The length of one record in bytes. -/
def Part.recordSize : Part → Nat
  | nodes => 8
  | links => 2
  | blocks => 20
  | rejects => 2

/-- How a trie is loaded from a file. -/
inductive LoadMode where
  /-- The records are copied. -/
  | copy
  /-- The records are those of the file until they are written to. -/
  | mapped
  /-- The records are those of the file, and what is written to them is written to the file. -/
  | shared
deriving DecidableEq

/-- An entry of the journal. -/
inductive Event where
  /-- The array of slots grows. -/
  | grow (capacity capacity' : Nat)
  /-- A part with so many bytes leaves the file that it was mapped from. -/
  | unmap (part : Part) (bytes : Nat)
  /-- A block was put into use. -/
  | addBlock (block : Nat)
  /-- No open block has room for so many children. -/
  | exhausted (children : Nat)
  /-- An image of so many bytes was written to a file. -/
  | saved (bytes : Nat)
  | loaded (capacity : Nat) (mode : LoadMode) (encoding : Encoding)
deriving DecidableEq

end DoubleArrayTrie
