import DoubleArrayTrie.Text.Quoted
import DoubleArrayTrie.Text.Utf8
import DoubleArrayTrie.Trie.Query

/-!
# A trie as text

The entries of a trie in braces, each as its key in quotes, a colon and its value: on one line, or
with a line for each entry.
-/

namespace DoubleArrayTrie

/-- A key in quotes, a colon and its value. -/
def displayEntry (entry : Key × Int32) : String :=
  String.ofList (Quoted.encode (Utf8.decode entry.1)) ++ ": " ++ toString entry.2.toInt

/-- The entries on one line. -/
def displayLine (entries : List (Key × Int32)) : String :=
  "\x7b" ++ String.intercalate ", " (entries.map displayEntry) ++ "\x7d"

/-- The entries with a line for each. -/
def displayLines (entries : List (Key × Int32)) : String :=
  if entries.isEmpty then "\x7b\x7d"
  else
    "\x7b\n" ++ String.join (entries.map fun entry => "    " ++ displayEntry entry ++ ",\n") ++
      "\x7d"

end DoubleArrayTrie
