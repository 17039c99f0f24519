import DoubleArrayTrie.Error

/-!
# Options of a trie

A trie is made with three options: whether siblings are kept in the order of their labels, how often
a block may be searched in vain, and by how much the array grows. Together with the encoding they
make up the `Config` of the trie, which no operation changes.

Options are also packed into the *flags word* of an image: bit `0` is `ordered`, the bits above it
are the step of linear growth, where `0` stands for doubling.

* `Options.ofFlags_flags`: valid options survive the packing.
-/

namespace DoubleArrayTrie

/-- By how much a full array grows. -/
inductive Growth where
  /-- The capacity doubles. -/
  | doubling
  /-- The capacity grows by so many blocks, but at most to its double. -/
  | linear (blocks : Nat)
deriving DecidableEq

namespace Growth

/-- The largest step of linear growth that fits into the flags word. -/
def maxBlocks : Nat := 1073741823

/-- The number of slots to add to an array of `capacity` slots. -/
def step : Growth → Nat → Nat
  | doubling, capacity => capacity
  | linear blocks, capacity => min (blocks * 256) capacity

/-- The step as the flags word holds it. -/
def code : Growth → Nat
  | doubling => 0
  | linear blocks => blocks

/-- The growth that a flags word means by a step. -/
def ofCode : Nat → Growth
  | 0 => doubling
  | blocks => linear blocks

end Growth

/-- The options that a trie is made with. -/
structure Options where
  /-- Siblings are kept in ascending order of their labels. -/
  ordered : Bool := true
  /-- The number of failed searches after which a block is no longer searched. -/
  maxTrial : Int := 1
  growth : Growth := .doubling
deriving DecidableEq

namespace Options

/-- The rule that the options break, if any. The trials are looked at before the growth. -/
def fault? (o : Options) : Option OptionFault :=
  if o.maxTrial < 1 then some .noTrials
  else match o.growth with
    | .doubling => none
    | .linear blocks =>
        if blocks = 0 then some .noBlocks
        else if Growth.maxBlocks < blocks then some .tooManyBlocks
        else none

/-- Refuses options that break a rule. -/
def validate (o : Options) : Except Error Unit :=
  match o.fault? with
  | none => .ok ()
  | some fault => .error (.invalidOptions fault)

/-- The flags word of the options. -/
def flags (o : Options) : Int :=
  2 * (o.growth.code : Int) + (if o.ordered then 1 else 0)

/-- The options that a flags word and a number of trials stand for. -/
def ofFlags (flags maxTrial : Int) : Except Error Options :=
  if flags < 0 then .error (.corrupt .negativeFlags)
  else
    let o : Options :=
      { ordered := flags % 2 == 1, maxTrial, growth := .ofCode (flags / 2).toNat }
    match o.fault? with
    | none => .ok o
    | some _ => .error (.corrupt .options)

theorem ofFlags_flags {o : Options} (h : o.fault? = none) : ofFlags o.flags o.maxTrial = .ok o := by
  have hcode : Growth.ofCode o.growth.code = o.growth := by
    unfold fault? at h
    cases hg : o.growth with
    | doubling => rfl
    | linear blocks =>
        cases blocks with
        | zero =>
            rw [hg] at h
            split at h <;> simp at h
        | succ n => rfl
  have hdiv : (o.flags / 2).toNat = o.growth.code := by
    unfold flags
    split <;> omega
  have hmod : (o.flags % 2 == 1) = o.ordered := by
    rw [Bool.eq_iff_iff, beq_iff_eq]
    unfold flags
    constructor
    · intro h
      by_cases ho : o.ordered = true
      · exact ho
      · rw [if_neg ho] at h
        omega
    · intro ho
      rw [if_pos ho]
      omega
  have hneg : ¬ o.flags < 0 := by
    unfold flags
    split <;> omega
  simp only [ofFlags, hneg, if_false, hdiv, hcode, hmod, h]

end Options

/-- Refuses a value that the encoding cannot hold. -/
def Encoding.checkValue (e : Encoding) (value : Int32) : Except Error Unit :=
  if e.accepts value then .ok () else .error (.valueOutOfRange value)

/-- What is fixed for the life of a trie: its options and its encoding. -/
structure Config extends Options where
  encoding : Encoding
deriving DecidableEq

end DoubleArrayTrie
