import DoubleArrayTrie.Options
import DoubleArrayTrie.Pool.Basic

/-!
# Tries and what they hold

A trie is a pool together with the configuration under which its words are read. The node of a byte
string is reached from the root, slot `0`, by one child for each byte; the child with label `l` of a
node with offset `k` is at slot `k ^^^ l`, and is a child of the node if its `check` says so. The
zero byte is the label of terminals and never a byte of a key.
-/

namespace DoubleArrayTrie

/-- A byte string under which a value can be stored. -/
abbrev Key := List UInt8

/-- A double-array trie from byte strings to numbers. -/
structure Trie where
  config : Config
  pool : Pool

/-- The answer to a question for a key. -/
inductive Lookup where
  | found (value : Int32)
  /-- The key leads to a node, but no value is stored for it. -/
  | noValue
  /-- The key leads out of the trie. -/
  | absent
deriving DecidableEq

/-- The value, if there is one. -/
def Lookup.value? : Lookup → Option Int32
  | found v => some v
  | noValue | absent => none

/-- A stored key that a query came to. -/
structure Match where
  value : Int32
  /-- The number of bytes of the key, without those that the query began with. -/
  length : Nat
  /-- The slot of the node of the key. -/
  node : Nat
deriving DecidableEq

namespace Pool

variable (c : Config) (p : Pool)

/-- The child of node `n` with this label. -/
def child? (n : Nat) (label : UInt8) : Option Nat :=
  if label = 0 then none
  else
    match c.encoding.offset? (p.slot n).base with
    | none => none
    | some k =>
        if (p.slot (k ^^^ label.toNat)).check = n then some (k ^^^ label.toNat) else none

/-- The node that the bytes lead to from node `n`. -/
def walk (n : Nat) : Key → Option Nat
  | [] => some n
  | label :: labels =>
      match p.child? c n label with
      | none => none
      | some m => walk m labels

/-- The value of the key of node `n`: its own word if it is a leaf with a value, else the word of
its terminal. -/
def valueAt (n : Nat) : Lookup :=
  let raw := (p.slot n).base
  if c.encoding.holdsValue raw then
    if raw = Encoding.unset then .noValue else .found (Int32.ofInt raw)
  else
    match c.encoding.offset? raw with
    | none => .noValue
    | some k =>
        if (p.slot k).check = n then .found (Int32.ofInt (p.slot k).base) else .noValue

/-- The offset of the children of node `n`, which has children. -/
def offsetOf (n : Nat) : Nat := (c.encoding.offset (p.slot n).base).toNat

/-- The slot whose word is the value of the key of node `n`, which has a value. -/
def valueSlot (n : Nat) : Nat :=
  if c.encoding.holdsValue (p.slot n).base then n else p.offsetOf c n

/-- What is stored for a key. -/
def find (key : Key) : Lookup :=
  match p.walk c 0 key with
  | none => .absent
  | some n => p.valueAt c n

end Pool

namespace Trie

/-- A trie without keys. -/
def empty (c : Config) : Trie := ⟨c, .empty c.encoding.rootBase⟩

/-- A trie without keys, if the options break no rule. -/
def create (e : Encoding) (o : Options := {}) : Except Error Trie :=
  match o.validate with
  | .ok () => .ok (empty { o with encoding := e })
  | .error err => .error err

/-- What is stored for a key. -/
def find (t : Trie) (key : Key) : Lookup := t.pool.find t.config key

/-- A stored key as a match. -/
def get? (t : Trie) (key : Key) : Option Match :=
  match t.pool.walk t.config 0 key with
  | none => none
  | some n => (t.pool.valueAt t.config n).value?.map fun v => ⟨v, key.length, n⟩

/-- Whether the key is stored. -/
def contains (t : Trie) (key : Key) : Bool := (t.find key).value?.isSome

/-- The same trie with records of its own. -/
def copy (t : Trie) : Trie := { t with pool := t.pool.copy }

end Trie

end DoubleArrayTrie
