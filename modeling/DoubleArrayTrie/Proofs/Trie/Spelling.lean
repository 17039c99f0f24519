import DoubleArrayTrie.Trie.Suffix
import DoubleArrayTrie.Proofs.Trie.Reading

/-!
# Reading keys off their nodes

On the way up from a node each slot tells the label of its node: it lies at the offset of the parent,
up to that label. So the bytes that are read are those of the trail.

* `Lays.suffix_eq`, `Lays.suffix_pastRoot`: the last bytes of the key of a node, and where they end.
* `fill_eq`: a buffer is filled with the same bytes.
-/

namespace DoubleArrayTrie

namespace Pool

variable {c : Config} {p : Pool} {T : Outline} {off : Trail → Nat} {t u : Trail}

theorem lowByte_natCast (k : Nat) : lowByte (k : Int) = UInt8.ofNat k := by
  unfold lowByte
  rw [← UInt8.toNat_inj, UInt8.toNat_ofNat', UInt8.toNat_ofNat']
  omega

/-- The label of a child is what its slot differs by from the offset of its parent. -/
theorem lowByte_xor_lowByte (k : Nat) (l : UInt8) :
    lowByte (k : Int) ^^^ lowByte ((k ^^^ l.toNat : Nat) : Int) = l := by
  rw [lowByte_natCast, lowByte_natCast, UInt8.ofNat_xor, UInt8.ofNat_toNat, ← UInt8.xor_assoc,
    UInt8.xor_self, UInt8.zero_xor]

theorem slot?_natCast {i : Nat} (hi : i < p.capacity) : p.slot? (i : Int) = some (p.slot i) := by
  unfold slot?
  rw [if_neg (by omega), Int.toNat_natCast, slot, Array.getD_eq_getD_getElem?,
    Array.getElem?_eq_getElem hi]
  rfl

namespace Lays

/-- On the way up from a node the labels of its trail are read, down to any node above it. -/
theorem suffixOnto_append (h : p.Lays c T off) (hmem : T.Mem (t ++ u)) (length n : Nat)
    (bytes : Key) : p.suffixOnto c length (t.length + n) (locate off (t ++ u)) bytes =
      p.suffixOnto c length n (locate off u) (t.reverse ++ bytes) := by
  induction t generalizing bytes with
  | nil => rw [List.length_nil, Nat.zero_add]; rfl
  | cons l t ih =>
    rw [List.cons_append] at hmem ⊢
    have hne : locate off (l :: (t ++ u)) ≠ 0 := fun h0 => by simpa using h.locate_eq_zero hmem h0
    have hcap : ∀ {v}, T.Mem v → locate off v < p.capacity := fun hv =>
      Nat.lt_of_lt_of_le (h.draws.lt_size hv) h.draws.kept.size_le
    have hparent := h.base_of_kids hmem.1 (.inr (List.ne_nil_of_mem hmem.2))
    rw [List.length_cons, Nat.succ_add, suffixOnto, if_neg (by omega), slot?_natCast (hcap hmem)]
    dsimp only
    rw [h.check_cons hmem, slot?_natCast (hcap hmem.1)]
    dsimp only
    rw [hparent, Encoding.offset_ofOffset, locate_cons, lowByte_xor_lowByte, ih hmem.1,
      List.reverse_cons, List.append_assoc]
    rfl

/-- On the way up from a node the labels of its trail are read. -/
theorem suffixOnto_eq (h : p.Lays c T off) (hmem : T.Mem (t ++ u)) (length : Nat) (bytes : Key) :
    p.suffixOnto c length t.length (locate off (t ++ u)) bytes = .ok (t.reverse ++ bytes) :=
  h.suffixOnto_append hmem length 0 bytes

/-- **The last bytes of the key of a node** are those of its trail. -/
theorem suffix_eq (h : p.Lays c T off) (hmem : T.Mem (t ++ u)) :
    p.suffix c (locate off (t ++ u)) t.length = .ok t.reverse := by
  unfold suffix
  rw [h.suffixOnto_eq hmem, List.append_nil]

/-- **More bytes** than the key has are not read: the way up ends at the root. -/
theorem suffix_pastRoot (h : p.Lays c T off) (hmem : T.Mem t) {length : Nat}
    (hlength : t.length < length) :
    p.suffix c (locate off t) length = .error (.pastRoot length) := by
  obtain ⟨n, rfl⟩ := Nat.exists_eq_add_of_lt hlength
  have hup := h.suffixOnto_append (t := t) (u := []) (by rwa [List.append_nil])
    (t.length + n + 1) (n + 1) []
  rw [List.append_nil] at hup
  exact hup

end Lays

/-- **Filling a buffer** writes the bytes that are read, in front of what is written. -/
theorem fill_eq (c : Config) (p : Pool) {n : Nat} (node : Int) {buffer : Key}
    (hn : n ≤ buffer.length) :
    p.fill c n node buffer = p.suffixOnto c buffer.length n node (buffer.drop n) := by
  induction n generalizing node buffer with
  | zero => rfl
  | succ n ih =>
    have hdrop : ∀ x, (buffer.set n x).drop n = x :: buffer.drop (n + 1) := fun x => by
      rw [List.drop_eq_getElem_cons (by rwa [List.length_set]), List.getElem_set_self,
        List.drop_set_of_lt (Nat.lt_succ_self n)]
    have hrest : ∀ parent x, p.fill c n parent (buffer.set n x) =
        p.suffixOnto c buffer.length n parent (x :: buffer.drop (n + 1)) := fun parent x => by
      rw [ih parent (by rw [List.length_set]; omega), List.length_set, hdrop]
    unfold fill suffixOnto
    simp only [hrest]

end Pool

end DoubleArrayTrie
