import DoubleArrayTrie.Image.Basic

/-!
# Mapped files

A file can be mapped into memory by parts. What is written to a part then goes to the file as well if
the mapping is shared with it, and stays apart from it otherwise. How a system brings that about is not
said here: `Mapping` stands for it, `Mapping.Documented` is what can be relied on, and `Mapping.direct`
does it on files that are byte strings.
-/

namespace DoubleArrayTrie

/-- Whether a mapping writes to its file. -/
inductive Sharing where
  | shared
  /-- What is written is seen by nobody else. -/
  | apart
deriving DecidableEq

/-- How a trie that is loaded in this way is mapped from its file, if it is. -/
def LoadMode.sharing? : LoadMode → Option Sharing
  | .copy => none
  | .mapped => some .apart
  | .shared => some .shared

/-- What becomes of a file when some bytes are written to a mapping of it. -/
structure Mapping where
  /-- The content of the file after the bytes are written where this offset is mapped. -/
  store : Sharing → (offset : Nat) → (bytes content : List UInt8) → List UInt8

/-- What is documented of mappings: writes inside the file go to it if it is shared, and never if not. -/
structure Mapping.Documented (m : Mapping) : Prop where
  shared : ∀ offset bytes content, offset + bytes.length ≤ content.length →
    m.store .shared offset bytes content = Image.overwrite offset bytes content
  apart : ∀ offset bytes content, m.store .apart offset bytes content = content

/-- Mappings of files that are byte strings. -/
def Mapping.direct : Mapping where
  store
    | .shared, offset, bytes, content => Image.overwrite offset bytes content
    | .apart, _, _, content => content

theorem Mapping.documented_direct : direct.Documented := ⟨fun _ _ _ _ => rfl, fun _ _ _ => rfl⟩

/-- The offset of a part in the image of a trie with so many slots. -/
def Part.offset (slots : Nat) : Part → Nat
  | nodes => Header.byteSize
  | links => Header.byteSize + slots * nodes.recordSize
  | blocks => Header.byteSize + slots * nodes.recordSize + slots * links.recordSize
  | rejects => Header.byteSize + slots * nodes.recordSize + slots * links.recordSize +
      slots / blockSize * blocks.recordSize

/-- The file that a trie is mapped from. -/
structure View where
  number : Nat
  sharing : Sharing
  /-- The number of slots in the file. -/
  slots : Nat

/-- The bytes of a part as the file has them that the pool was mapped from, if it was. -/
def Pool.fileBytes? (p : Pool) : Part → Option (List UInt8)
  | .nodes => (p.backing.nodes.inFile p.slots).map Image.nodeBytes
  | .links => (p.backing.links.inFile p.slots).map Image.linkBytes
  | .blocks => (p.backing.blocks.inFile p.blocks).map Image.blockBytes
  | .rejects => (p.backing.rejects.inFile p.rejects).map Image.rejectBytes

/-- The content of the file that a pool is mapped from, brought up to date part by part. -/
def Pool.writeBack (m : Mapping) (v : View) (p : Pool) (content : List UInt8) : List UInt8 :=
  [Part.nodes, .links, .blocks, .rejects].foldl (fun content part =>
    match p.fileBytes? part with
    | none => content
    | some bytes => m.store v.sharing (part.offset v.slots) bytes content) content

end DoubleArrayTrie
