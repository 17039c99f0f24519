import DoubleArrayTrie.Proofs.Trie.Layout
import DoubleArrayTrie.Proofs.Trie.Contents

/-!
# Reading a trie

A pool that lays out an outline is read as the outline says: the bytes of a key lead to the node that
has them as its trail, and the value found there is the one that the outline has for it.

* `Lays.child?_eq`, `Lays.walk_eq_some_iff`: how bytes lead from node to node.
* `Lays.valueAt_eq`: the value of a node.
* `Lays.find_of_mem`, `Lays.find_of_not`: what is found for a key.
-/

namespace DoubleArrayTrie

/-- The answer for a node with this value, if it has one. -/
def Lookup.ofValue : Option Int → Lookup
  | some w => .found (Int32.ofInt w)
  | none => .noValue

namespace Pool

variable {c : Config} {p : Pool} {T : Outline} {off : Trail → Nat} {q : Trail} {x : UInt8} {n : Nat}

namespace Lays

/-! ### The word of a node -/

theorem holdsValue_base (h : p.Lays c T off) (hq : T.Mem q) :
    c.encoding.holdsValue (p.slot (locate off q)).base = true ↔
      q ≠ [] ∧ T.kids q = [] ∧ c.encoding.holdsValue (T.word q) = true := by
  by_cases hk : q = [] ∨ T.kids q ≠ []
  · rw [h.base_of_kids hq hk, Encoding.holdsValue_ofOffset]
    simp only [Bool.false_eq_true, false_iff]
    tauto
  · rw [not_or, not_not] at hk
    obtain ⟨l, u, rfl⟩ := List.exists_cons_of_ne_nil hk.1
    rw [h.base_of_leaf hq hk.2]
    simp [hk.2]

/-- A node has an offset if it has children or is the root. -/
theorem offset?_base (h : p.Lays c T off) (hq : T.Mem q) (hterm : ∀ r, q ≠ 0 :: r) :
    c.encoding.offset? (p.slot (locate off q)).base =
      if q = [] ∨ T.kids q ≠ [] then some (off q) else none := by
  split_ifs with hk
  · rw [h.base_of_kids hq hk, Encoding.offset?_ofOffset]
  · rw [not_or, not_not] at hk
    obtain ⟨l, u, rfl⟩ := List.exists_cons_of_ne_nil hk.1
    rw [h.base_of_leaf hq hk.2]
    refine h.sound.leaf l u ?_ hq hk.2
    rintro rfl
    exact hterm u rfl

/-- The word of a leaf that holds a value is the value. -/
theorem leafValue?_eq (h : p.Lays c T off) (hq : T.Mem q) : T.leafValue? c q =
    if c.encoding.holdsValue (p.slot (locate off q)).base = true ∧
      (p.slot (locate off q)).base ≠ Encoding.unset
    then some (p.slot (locate off q)).base else none := by
  unfold Outline.leafValue?
  by_cases hk : q ≠ [] ∧ T.kids q = []
  · obtain ⟨l, u, rfl⟩ := List.exists_cons_of_ne_nil hk.1
    rw [h.base_of_leaf hq hk.2]
    simp [hk.2]
  · have hholds : ¬ c.encoding.holdsValue (p.slot (locate off q)).base = true := fun hh =>
      hk (((h.holdsValue_base hq).mp hh).imp_right And.left)
    rw [if_neg fun hc => hk ⟨hc.1, hc.2.1⟩, if_neg fun hc => hholds hc.1]

/-- **The value of a node** is the one that the outline has for it. -/
theorem valueAt_eq (h : p.Lays c T off) (hq : T.Mem q) (hterm : ∀ r, q ≠ 0 :: r) :
    p.valueAt c (locate off q) = .ofValue (T.value? c q) := by
  have hleaf := h.leafValue?_eq hq
  have hxor : off q ^^^ (0 : UInt8).toNat = off q := Nat.xor_zero _
  unfold valueAt Outline.value?
  dsimp only
  by_cases hholds : c.encoding.holdsValue (p.slot (locate off q)).base = true
  · have hmem : 0 ∉ T.kids q := by
      rw [((h.holdsValue_base hq).mp hholds).2.1]
      simp
    rw [if_pos hholds, if_neg hmem, hleaf]
    by_cases hunset : (p.slot (locate off q)).base = Encoding.unset
    · rw [if_pos hunset, if_neg fun hc => hc.2 hunset]
      rfl
    · rw [if_neg hunset, if_pos ⟨hholds, hunset⟩]
      rfl
  · rw [if_neg fun hc => hholds hc.1] at hleaf
    rw [if_neg hholds, hleaf, h.offset?_base hq hterm]
    by_cases hk : q = [] ∨ T.kids q ≠ []
    · have hcheck := h.check_eq_iff hq hk 0
      rw [hxor] at hcheck
      rw [if_pos hk]
      simp only [hcheck]
      split_ifs with hmem
      · have hbase := h.base_of_leaf (l := 0) (t := q) ⟨hq, hmem⟩ (h.sound.terminal q)
        rw [locate_cons, hxor] at hbase
        rw [hbase]
        rfl
      · rfl
    · rw [if_neg hk, if_neg fun hmem => hk (.inr (List.ne_nil_of_mem hmem))]
      rfl

/-! ### The way down -/

theorem child?_eq (h : p.Lays c T off) (hq : T.Mem q) (h0 : 0 ∉ q) (x : UInt8) :
    p.child? c (locate off q) x =
      if x ≠ 0 ∧ x ∈ T.kids q then some (locate off (x :: q)) else none := by
  unfold child?
  by_cases hx0 : x = 0
  · rw [if_pos hx0, if_neg fun hc => hc.1 hx0]
  · rw [if_neg hx0, h.offset?_base hq (Outline.ne_terminal h0)]
    by_cases hk : q = [] ∨ T.kids q ≠ []
    · rw [if_pos hk]
      simp only [h.check_eq_iff hq hk x, ne_eq, hx0, not_false_eq_true, true_and]
      rfl
    · rw [if_neg hk, if_neg fun hc => hk (.inr (List.ne_nil_of_mem hc.2))]

/-- **The bytes lead to the node of their trail**, if it is one. -/
theorem walk_eq_some_iff (h : p.Lays c T off) (key : Key) (hq : T.Mem q) (h0 : 0 ∉ q) :
    p.walk c (locate off q) key = some n ↔
      0 ∉ key ∧ T.Mem (key.reverse ++ q) ∧ locate off (key.reverse ++ q) = n := by
  induction key generalizing q with
  | nil => simp [walk, hq]
  | cons x key ih =>
    unfold walk
    rw [h.child?_eq hq h0]
    have hsplit : (x :: key).reverse ++ q = key.reverse ++ x :: q := by simp
    rw [hsplit, List.mem_cons, not_or]
    split_ifs with hx
    · have hxq : 0 ∉ x :: q := by
        rw [List.mem_cons, not_or]
        exact ⟨Ne.symm hx.1, h0⟩
      rw [ih (q := x :: q) ⟨hq, hx.2⟩ hxq]
      simp [Ne.symm hx.1]
    · simp only [false_iff]
      rintro ⟨⟨hx0, -⟩, hmem, -⟩
      exact hx ⟨Ne.symm hx0, (Outline.mem_of_suffix hmem (List.suffix_append ..)).2⟩

theorem walk_root (h : p.Lays c T off) {key : Key} :
    p.walk c 0 key = some n ↔ 0 ∉ key ∧ T.Mem key.reverse ∧ locate off key.reverse = n := by
  have hwalk := h.walk_eq_some_iff (n := n) (q := []) key trivial (by simp)
  rwa [List.append_nil] at hwalk

/-- **What is found** for the key of a node. -/
theorem find_of_mem (h : p.Lays c T off) {key : Key} (h0 : 0 ∉ key) (hmem : T.Mem key.reverse) :
    p.find c key = .ofValue (T.value? c key.reverse) := by
  have hwalk := h.walk_root.mpr ⟨h0, hmem, rfl⟩
  unfold find
  rw [hwalk]
  exact h.valueAt_eq hmem (Outline.ne_terminal (by rwa [List.mem_reverse]))

theorem walk_of_not (h : p.Lays c T off) {key : Key} (hmem : ¬ (0 ∉ key ∧ T.Mem key.reverse)) :
    p.walk c 0 key = none := by
  refine Option.eq_none_iff_forall_ne_some.mpr fun n hn => hmem ?_
  obtain ⟨h0, hkey, -⟩ := h.walk_root.mp hn
  exact ⟨h0, hkey⟩

/-- Nothing is found for other keys. -/
theorem find_of_not (h : p.Lays c T off) {key : Key} (hmem : ¬ (0 ∉ key ∧ T.Mem key.reverse)) :
    p.find c key = .absent := by
  unfold find
  rw [h.walk_of_not hmem]

end Lays

end Pool

end DoubleArrayTrie
