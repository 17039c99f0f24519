import DoubleArrayTrie.Image.Basic
import DoubleArrayTrie.Trie.Query

/-!
# Digests

The 64-bit FNV-1a digest of a byte string, and the byte strings that stand for the contents of a
trie and of its parts.
-/

namespace DoubleArrayTrie

/-- The FNV-1a digest: each byte is exclusive-or-ed in, then the digest is multiplied by a prime. -/
def fnv1a (bytes : List UInt8) : UInt64 :=
  bytes.foldl (fun h b => (h ^^^ b.toUInt64) * 0x100000001b3) 0xcbf29ce484222325

/-- The digest of the image of a trie. -/
def Trie.imageDigest (t : Trie) : UInt64 := fnv1a t.image

/-- The digests of the four parts of a pool. -/
def Pool.partDigests (p : Pool) : List UInt64 :=
  [Part.nodes, .links, .blocks, .rejects].map fun part => fnv1a (p.partBytes part)

/-- Entries as bytes: each key with a zero byte after it, then its value in four bytes. -/
def entryBytes (entries : List (Key × Int32)) : List UInt8 :=
  entries.flatMap fun (key, value) => key ++ 0 :: Integer.encode 4 value.toInt

/-- The digest of the keys and values of a trie. -/
def Trie.entryDigest (t : Trie) : Except SuffixFault UInt64 :=
  t.entries.map fun entries => fnv1a (entryBytes entries)

end DoubleArrayTrie
