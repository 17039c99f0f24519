import DoubleArrayTrie.Trie.Relocate

/-!
# Storing values

To store a value the nodes of the key are made where they are missing. In the reduced encoding a
leaf on the way first gives its value to a terminal, since its word has to say where its children
are. The value goes into the word of the last node if that is a leaf, and into its terminal
otherwise.

Keys are not empty and have no zero byte, and the encoding must accept the value. `Config.admit`
looks at these rules in this order, before anything is written.
-/

namespace DoubleArrayTrie

/-- Refuses an entry that the trie cannot hold. -/
def Config.admit (c : Config) (key : Key) (value : Int32) : Except Error Unit :=
  if key = [] then .error .emptyKey
  else
    match key.findIdx? (· == 0) with
    | some offset => .error (.nulByte offset)
    | none => c.encoding.checkValue value

namespace Pool

/-- The child of node `n` with this label, which is made if there is none. -/
def ensureChild (c : Config) (p : Pool) (n : Nat) (label : UInt8) : Pool × Nat :=
  match c.encoding.offset? (p.slot n).base with
  | none =>
      let (p, e) := p.placeOne c
      let k := e ^^^ label.toNat
      let p := (p.occupy c e label n).setBase n (c.encoding.ofOffset k)
      (p.linkChild c.ordered n k label false, e)
  | some k =>
      let e := k ^^^ label.toNat
      let check := (p.slot e).check
      if check < 0 then ((p.occupy c e label n).linkChild c.ordered n k label true, e)
      else if check = n then (p, e)
      else p.relocate c ⟨n, k, label⟩

/-- Gives the value of leaf `n`, if it is one, to a terminal. -/
def openLeaf (c : Config) (p : Pool) (n : Nat) : Pool :=
  let raw := (p.slot n).base
  if c.encoding.holdsValue raw ∧ raw ≠ Encoding.unset then
    let (p, e) := p.ensureChild c n 0
    p.setBase e raw
  else p

/-- The node that the bytes lead to from node `n`, with all nodes on the way made. -/
def ensurePath (c : Config) (p : Pool) (n : Nat) : Key → Pool × Nat
  | [] => (p, n)
  | label :: labels =>
      let (p, m) := (p.openLeaf c n).ensureChild c n label
      ensurePath c p m labels

/-- Stores a value for a key that is admitted, and returns the value it replaces. -/
def store (c : Config) (p : Pool) (key : Key) (value : Int32) : Pool × Option Int32 :=
  let (p, n) := p.ensurePath c 0 key
  let previous := (p.valueAt c n).value?
  let (p, e) := if c.encoding.holdsValue (p.slot n).base then (p, n) else p.ensureChild c n 0
  (p.setBase e value.toInt, previous)

end Pool

namespace Trie

/-- Stores a value for a key. Returns the value that it replaces. -/
def insert (t : Trie) (key : Key) (value : Int32) : Except Error (Trie × Option Int32) :=
  match t with
  | ⟨c, p⟩ =>
      match c.admit key value with
      | .error err => .error err
      | .ok () =>
          let (p, previous) := p.store c key value
          .ok (⟨c, p⟩, previous)

/-- Stores the entries one after the other, up to the first that is refused. -/
def insertAll (t : Trie) : List (Key × Int32) → Trie × Except Error Unit
  | [] => (t, .ok ())
  | (key, value) :: entries =>
      match t.config.admit key value with
      | .error err => (t, .error err)
      | .ok () => insertAll ⟨t.config, (t.pool.store t.config key value).1⟩ entries

/-- Stores each key with its position as its value, up to the first that is refused. Positions that
are not 32-bit numbers are refused. -/
def insertKeys (t : Trie) (keys : List Key) (position : Nat := 0) : Trie × Except Error Unit :=
  match keys with
  | [] => (t, .ok ())
  | key :: keys =>
      if 2147483647 < position then (t, .error (.valueOutOfRange 2147483647))
      else
        match t.config.admit key (Int32.ofNat position) with
        | .error err => (t, .error err)
        | .ok () =>
            insertKeys ⟨t.config, (t.pool.store t.config key (Int32.ofNat position)).1⟩ keys
              (position + 1)

end Trie

end DoubleArrayTrie
