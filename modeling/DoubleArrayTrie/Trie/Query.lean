import DoubleArrayTrie.Trie.Cursor
import DoubleArrayTrie.Trie.Suffix

/-!
# Queries that have many answers

Three searches give their answers one at a time. Each is a state with a step, which returns the next
answer, if there is one, and the state after it; a search that has come to its end stays there.

* `Predictor` goes through the stored keys that begin with given bytes.
* `PrefixSearch` goes through the stored keys that given bytes begin with.
* `Scanner` goes through the places of a text where a stored key stands.

`Trie.predict`, `Trie.commonPrefixes` and `Trie.scan` are the lists of all answers, and
`Trie.entries` is the list of all keys with their values.
-/

namespace DoubleArrayTrie

/-- The answers of a search, at most so many. -/
def drain {σ α : Type} (next : σ → Option α × σ) : Nat → σ → List α
  | 0, _ => []
  | n + 1, s =>
      match next s with
      | (none, _) => []
      | (some a, s) => a :: drain next n s

/-! ### Keys that begin with given bytes -/

/-- A search for the keys at or below a node. -/
structure Predictor where
  root : Nat
  cursor : Option Cursor

/-- The search for the keys that begin with `stem`. -/
def Trie.predictor (t : Trie) (stem : Key) : Predictor :=
  match t.pool.walk t.config 0 stem with
  | none => ⟨0, none⟩
  | some n => ⟨n, t.pool.firstKey? t.config n 0⟩

/-- The next key. Its length counts the bytes after the stem. -/
def Predictor.next (t : Trie) (s : Predictor) : Option Match × Predictor :=
  match s.cursor with
  | none => (none, s)
  | some k =>
      (some ⟨k.value, k.depth, k.node⟩, { s with cursor := t.pool.nextKey? t.config s.root k })

/-- All stored keys that begin with `stem`. -/
def Trie.predict (t : Trie) (stem : Key) : List Match :=
  drain (Predictor.next t) t.pool.capacity (t.predictor stem)

/-! ### Keys that given bytes begin with -/

/-- A search along a byte string: the node it has come to, the bytes behind it and before it. -/
structure PrefixSearch where
  node : Nat
  length : Nat
  rest : Key

/-- The search for the keys that `key` begins with. -/
def PrefixSearch.start (key : Key) : PrefixSearch := ⟨0, 0, key⟩

/-- The next stored key. Where the bytes lead out of the trie the search is at its end. -/
def PrefixSearch.advance (t : Trie) (node length : Nat) : Key → Option Match × PrefixSearch
  | [] => (none, ⟨node, length, []⟩)
  | label :: rest =>
      match t.pool.child? t.config node label with
      | none => (none, ⟨node, length, []⟩)
      | some n =>
          match t.pool.valueAt t.config n with
          | .found v => (some ⟨v, length + 1, n⟩, ⟨n, length + 1, rest⟩)
          | _ => advance t n (length + 1) rest

/-- The next stored key. -/
def PrefixSearch.next (t : Trie) (s : PrefixSearch) : Option Match × PrefixSearch :=
  PrefixSearch.advance t s.node s.length s.rest

/-- Bounds on the number of answers to come. -/
def PrefixSearch.sizeHint (s : PrefixSearch) : Nat × Nat := (0, s.rest.length)

/-- The bounds before each step of at most so many, up to the first step without an answer and after
it, and the search that is left. -/
def PrefixSearch.hints (t : Trie) : Nat → PrefixSearch → List (Nat × Nat) × PrefixSearch
  | 0, s => ([s.sizeHint], s)
  | n + 1, s =>
      match s.next t with
      | (none, s') => ([s.sizeHint, s'.sizeHint], s')
      | (some _, s') =>
          let (hints, last) := PrefixSearch.hints t n s'
          (s.sizeHint :: hints, last)

/-- All stored keys that `key` begins with, the shortest first. -/
def Trie.commonPrefixes (t : Trie) (key : Key) : List Match :=
  drain (PrefixSearch.next t) key.length (.start key)

/-! ### Keys inside a text -/

/-- A place of a text where a stored key stands: its bytes from `start` up to `stop`. -/
structure TextMatch where
  start : Nat
  stop : Nat
  value : Int32
deriving DecidableEq

/-- A search through a text. -/
structure Scanner where
  /-- Where the bytes that are being matched start. -/
  start : Nat
  /-- The text from there on. -/
  text : Key
  /-- The search for keys that stand there. -/
  here : PrefixSearch

/-- The search through `text` from its start. -/
def Scanner.ofText (text : Key) : Scanner := ⟨0, text, .start text⟩

/-- The next place that starts at `start` or later, where `text` is the text from there on. -/
def Scanner.restart (t : Trie) (start : Nat) : Key → Option TextMatch × Scanner
  | [] => (none, ⟨start, [], .start []⟩)
  | byte :: text =>
      match (PrefixSearch.start (byte :: text)).next t with
      | (some m, here) =>
          (some ⟨start, start + m.length, m.value⟩, ⟨start, byte :: text, here⟩)
      | (none, _) => restart t (start + 1) text

/-- The next place: first the longer keys that start at the same byte, then later starts. -/
def Scanner.next (t : Trie) (s : Scanner) : Option TextMatch × Scanner :=
  match s.here.next t with
  | (some m, here) => (some ⟨s.start, s.start + m.length, m.value⟩, { s with here })
  | (none, here) =>
      match s.text with
      | [] => (none, { s with here })
      | _ :: text => Scanner.restart t (s.start + 1) text

/-- All places of `text` where a stored key stands, by their start and then by their end. -/
def Trie.scan (t : Trie) (text : Key) : List TextMatch :=
  drain (Scanner.next t) (text.length * text.length) (.ofText text)

/-! ### All keys -/

/-- The keys of the trie with their values. -/
def Trie.entries (t : Trie) : Except SuffixFault (List (Key × Int32)) :=
  (t.predict []).mapM fun m => (t.suffixOf m).map fun key => (key, m.value)

/-- The keys of the trie. -/
def Trie.keys (t : Trie) : Except SuffixFault (List Key) := (t.predict []).mapM t.suffixOf

/-- The values of the trie, in the order of their keys. -/
def Trie.values (t : Trie) : List Int32 := (t.predict []).map (·.value)

end DoubleArrayTrie
