/-!
# The two encodings of a node

A slot of the double array has a word `base`. An *encoding* says how that word is read. In the
`standard` encoding it is the offset of the children, and the value of a key is the `base` of its
child `0`, the *terminal*. In the `reduced` encoding the offset `k` is written `-k - 1`, and a word
that is not negative is the value itself, held by a leaf, so that a key without extensions needs no
terminal.

* `offset?_ofOffset`: an offset that was written is read back.
* `holdsValue_ofOffset`: a written offset is never taken for a value.
-/

namespace DoubleArrayTrie

/-- How the `base` word of a slot is read. -/
inductive Encoding where
  /-- The word is the offset of the children. -/
  | standard
  /-- The word is the value of a leaf, or the offset of the children as a negative number. -/
  | reduced
deriving DecidableEq

namespace Encoding

/-- The word of a reduced leaf that has no value yet; the values of keys stay below it. -/
def unset : Int := 2147483646

/-- The name under which errors speak of an encoding. -/
def name : Encoding → String
  | standard => "standard"
  | reduced => "reduced"

/-- The word of the root: its children are at offset `0` in either encoding. -/
def rootBase : Encoding → Int
  | standard => 0
  | reduced => -1

/-- The offset of the children of a slot with word `raw`. A negative one means no children. -/
def offset : Encoding → Int → Int
  | standard, raw => raw
  | reduced, raw => -(raw + 1)

/-- The offset of the children of a slot with word `raw`, if it can have children. -/
def offset? (e : Encoding) (raw : Int) : Option Nat :=
  if e.offset raw < 0 then none else some (e.offset raw).toNat

/-- The word that puts the children at an offset. -/
def ofOffset : Encoding → Int → Int
  | standard, k => k
  | reduced, k => -k - 1

/-- Whether a word is the value of a leaf. -/
def holdsValue : Encoding → Int → Bool
  | standard, _ => false
  | reduced, raw => decide (0 ≤ raw)

/-- The word of a slot that was just taken for a child with this label. -/
def fresh : Encoding → UInt8 → Int
  | standard, label => if label = 0 then 0 else -1
  | reduced, _ => unset

/-- Whether a key may carry this value. -/
def accepts : Encoding → Int32 → Bool
  | standard, _ => true
  | reduced, v => decide (0 ≤ v.toInt) && decide (v.toInt < unset)

theorem offset_ofOffset (e : Encoding) (k : Int) : e.offset (e.ofOffset k) = k := by
  cases e with
  | standard => rfl
  | reduced => show -(-k - 1 + 1) = k; omega

theorem offset?_ofOffset (e : Encoding) (k : Nat) : e.offset? (e.ofOffset k) = some k := by
  unfold offset?
  rw [offset_ofOffset]
  simp

theorem holdsValue_ofOffset (e : Encoding) (k : Nat) : e.holdsValue (e.ofOffset k) = false := by
  cases e with
  | standard => rfl
  | reduced => exact decide_eq_false (by show ¬ (0 : Int) ≤ -(k : Int) - 1; omega)

theorem rootBase_eq (e : Encoding) : e.rootBase = e.ofOffset 0 := by
  cases e <;> rfl

/-- A value is never taken for an offset. -/
theorem offset?_of_holdsValue {e : Encoding} {raw : Int} (h : e.holdsValue raw = true) :
    e.offset? raw = none := by
  cases e with
  | standard => simp [holdsValue] at h
  | reduced =>
    have hraw : 0 ≤ raw := of_decide_eq_true h
    exact if_pos (by show -(raw + 1) < 0; omega)

/-- Only leaves of the reduced encoding hold values. -/
theorem eq_reduced {e : Encoding} {raw : Int} (h : e.holdsValue raw = true) : e = reduced := by
  cases e with
  | standard => simp [holdsValue] at h
  | reduced => rfl

theorem accepts_reduced {v : Int32} :
    reduced.accepts v = true ↔ 0 ≤ v.toInt ∧ v.toInt < unset := by
  simp [accepts]

/-- In an encoding whose leaves hold values an accepted value is one that a leaf can hold. -/
theorem holdsValue_of_accepts {e : Encoding} {raw : Int} {v : Int32} (hraw : e.holdsValue raw = true)
    (h : e.accepts v = true) : e.holdsValue v.toInt = true ∧ v.toInt ≠ unset := by
  obtain rfl := eq_reduced hraw
  obtain ⟨hnonneg, hlt⟩ := accepts_reduced.mp h
  exact ⟨decide_eq_true hnonneg, Int.ne_of_lt hlt⟩

end Encoding

end DoubleArrayTrie
