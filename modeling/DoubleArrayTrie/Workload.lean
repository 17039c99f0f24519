import DoubleArrayTrie.Trie.Erase
import DoubleArrayTrie.Trie.Insert
import DoubleArrayTrie.Trie.Query

/-!
# Many keys at once

Key sets that are given by a rule, and runs that store, erase or look up all keys of a set and count
the answers.
-/

namespace DoubleArrayTrie

/-! ### Key sets -/

namespace Workload

/-- A number in decimal, with zeros after the sign up to a width. -/
def paddedDecimal (width : Nat) (i : Int) : Key :=
  let sign : Key := if i < 0 then [45] else []
  let digits : Key := (Nat.toDigits 10 i.natAbs).map fun ch => UInt8.ofNat ch.toNat
  sign ++ List.replicate (width - (sign.length + digits.length)) 48 ++ digits

/-- The keys `stem` and a number, for `count` numbers from `start` on at the distance `step`. -/
def numberedKeys (stem : Key) (start step : Int) (count width : Nat) : List Key :=
  (List.range count).map fun i : Nat => stem ++ paddedDecimal width (start + i * step)

/-- The next number below `n` of a linear congruential generator, and the state after it. -/
def draw (state : UInt64) (n : Nat) : Nat × UInt64 :=
  let state := state * 6364136223846793005 + 1442695040888963407
  ((state >>> 33).toNat % n, state)

/-- The form of generated keys: the bounds of their length and of their bytes. -/
structure KeyForm where
  minLength : Nat
  maxLength : Nat
  lo : Nat
  hi : Nat

/-- So many generated bytes. -/
def drawBytes (form : KeyForm) : Nat → UInt64 → Key × UInt64
  | 0, state => ([], state)
  | n + 1, state =>
      let (d, state) := draw state (form.hi - form.lo + 1)
      let (bytes, state) := drawBytes form n state
      (UInt8.ofNat (form.lo + d) :: bytes, state)

/-- So many generated keys. -/
def drawKeys (form : KeyForm) : Nat → UInt64 → List Key
  | 0, _ => []
  | n + 1, state =>
      let (d, state) := draw state (form.maxLength - form.minLength + 1)
      let (key, state) := drawBytes form (form.minLength + d) state
      key :: drawKeys form n state

end Workload

/-! ### Counted runs -/

/-- How often each kind of answer was given, and the sum of the values. -/
structure Tally where
  hits : Nat := 0
  noValue : Nat := 0
  absent : Nat := 0
  sum : Int := 0
deriving DecidableEq

/-- A tally with one more answer. -/
def Tally.add (s : Tally) : Lookup → Tally
  | .found v => { s with hits := s.hits + 1, sum := s.sum + v.toInt }
  | .noValue => { s with noValue := s.noValue + 1 }
  | .absent => { s with absent := s.absent + 1 }

namespace Trie

/-- Looks up all keys. -/
def tallyFind (t : Trie) (keys : List Key) : Tally :=
  keys.foldl (fun s key => s.add (t.find key)) {}

/-- Erases all keys. -/
def tallyErase (t : Trie) (keys : List Key) (s : Tally := {}) : Trie × Tally :=
  match keys with
  | [] => (t, s)
  | key :: keys =>
      let (t, answer) := t.erase key
      tallyErase t keys (s.add answer)

/-- Stores all keys with their positions, up to the first that is refused. A key that was stored
before counts as found. -/
def tallyInsert (t : Trie) (keys : List Key) (position : Nat := 0) (s : Tally := {}) :
    Trie × Except Error Tally :=
  match keys with
  | [] => (t, .ok s)
  | key :: keys =>
      let value := Int32.ofNat position
      match t.config.admit key value with
      | .error err => (t, .error err)
      | .ok () =>
          let c := t.config
          let (p, previous) := t.pool.store c key value
          tallyInsert ⟨c, p⟩ keys (position + 1)
            (s.add (previous.elim .absent .found))

/-- Erases every key that is stored. Returns how many there were and how many were found. -/
def eraseAll (t : Trie) : Except SuffixFault (Trie × Nat × Nat) :=
  t.keys.map fun keys =>
    let (t, s) := t.tallyErase keys
    (t, keys.length, s.hits)

end Trie

end DoubleArrayTrie
