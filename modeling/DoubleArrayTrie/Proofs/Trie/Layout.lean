import DoubleArrayTrie.Proofs.Trie.Outline

/-!
# Pools that hold a trie

A pool lays out an outline if it draws its nodes, each child at the offset of its parent. Children of
the root are in block `0`, all others outside of it, so that no two of them ever fight for a slot.

* `Lays.child?_eq`: a child is found where its label is in the outline, and nowhere else.
* `Lays.chain_eq`: following the links of a node yields the labels of its children.
-/

namespace DoubleArrayTrie

namespace Pool

/-- The pool holds the trie of an outline, with the children of each node at its offset. -/
structure Lays (c : Config) (p : Pool) (T : Outline) (off : Trail → Nat) : Prop where
  sound : T.Sound c
  draws : p.Draws c T.Mem (locate off) (T.slot c off (locate off))
  root : off [] = 0
  deep : ∀ t, t ≠ [] → T.kids t ≠ [] → blockSize ≤ off t

variable {c : Config} {p q : Pool} {T : Outline} {off : Trail → Nat} {t u : Trail} {l x : UInt8}
  {e : Nat}

namespace Lays

/-! ### Where nodes are -/

theorem slot_eq (h : p.Lays c T off) (ht : T.Mem t) :
    p.slot (locate off t) = T.slot c off (locate off) t := h.draws.slot_eq ht

/-- The root is in slot `0`, and its first child takes the place of a sibling. -/
theorem slot_root (h : p.Lays c T off) :
    p.slot 0 = ⟨c.encoding.ofOffset (off []), -1, (T.kids []).headD 0, 0⟩ :=
  h.slot_eq (t := []) trivial

theorem locate_eq_zero (h : p.Lays c T off) (ht : T.Mem t) (h0 : locate off t = 0) : t = [] :=
  h.draws.inj t [] ht trivial h0

theorem locate_inj (h : p.Lays c T off) (ht : T.Mem t) (hu : T.Mem u)
    (htu : locate off t = locate off u) : t = u := h.draws.inj t u ht hu htu

/-- The children of the root are in block `0`, the others are not. -/
theorem blockSize_le_locate (h : p.Lays c T off) (ht : T.Mem (l :: t)) :
    blockSize ≤ locate off (l :: t) ↔ t ≠ [] := by
  rw [blockSize_le_iff]
  unfold locate
  rw [blockOf_xor]
  constructor
  · rintro hpos rfl
    rw [h.root] at hpos
    simp [blockOf] at hpos
  · intro hne
    exact blockSize_le_iff.mp (h.deep t hne (List.ne_nil_of_mem ht.2))

/-- The slots at the offset of a node with children, or of the root, are in use or free. -/
theorem off_lt_size (h : p.Lays c T off) (ht : T.Mem t) (hk : t = [] ∨ T.kids t ≠ []) :
    off t < p.size := by
  rcases hk with rfl | hk
  · have := h.draws.kept.size_pos
    rw [h.root]
    unfold blockSize at this
    omega
  · obtain ⟨l, hl⟩ := List.exists_mem_of_ne_nil _ hk
    have hlt := h.draws.lt_size (t := l :: t) ⟨ht, hl⟩
    have hxor := h.draws.kept.xor_lt l hlt
    unfold locate at hxor
    rwa [xor_label_cancel] at hxor

/-! ### What slots hold -/

theorem base_of_kids (h : p.Lays c T off) (ht : T.Mem t) (hk : t = [] ∨ T.kids t ≠ []) :
    (p.slot (locate off t)).base = c.encoding.ofOffset (off t) := by
  rw [h.slot_eq ht]
  rcases t with _ | ⟨l, t⟩
  · rfl
  · exact if_neg (hk.resolve_left (by simp))

theorem base_of_leaf (h : p.Lays c T off) (ht : T.Mem (l :: t)) (hk : T.kids (l :: t) = []) :
    (p.slot (locate off (l :: t))).base = T.word (l :: t) := by
  rw [h.slot_eq ht]
  exact if_pos hk

theorem check_cons (h : p.Lays c T off) (ht : T.Mem (l :: t)) :
    (p.slot (locate off (l :: t))).check = locate off t := by
  rw [h.slot_eq ht]
  rfl

theorem offsetOf_eq (h : p.Lays c T off) (ht : T.Mem t) (hk : t = [] ∨ T.kids t ≠ []) :
    p.offsetOf c (locate off t) = off t := by
  unfold offsetOf
  rw [h.base_of_kids ht hk, Encoding.offset_ofOffset, Int.toNat_natCast]

/-- A slot that names a node as its parent is that of one of its children. -/
theorem exists_kid (h : p.Lays c T off) (ht : T.Mem t) (he : e < p.size)
    (hcheck : (p.slot e).check = locate off t) : ∃ l ∈ T.kids t, off t ^^^ l.toNat = e := by
  obtain ⟨v, hv, hloc, hslot⟩ := h.draws.exists_of_check he (by
    rw [hcheck]
    exact Int.natCast_nonneg _)
  rw [hslot] at hcheck
  rcases v with _ | ⟨m, v⟩
  · -- the root names no parent
    have hneg : (-1 : Int) = (locate off t : Nat) := hcheck
    omega
  · have hpar : locate off v = locate off t := Int.ofNat.inj hcheck
    obtain rfl := h.locate_inj hv.1 ht hpar
    exact ⟨m, hv.2, hloc⟩

/-- **A child is where its label puts it**, and the slot there names its parent. -/
theorem check_eq_iff (h : p.Lays c T off) (ht : T.Mem t) (hk : t = [] ∨ T.kids t ≠ []) (x : UInt8) :
    (p.slot (off t ^^^ x.toNat)).check = locate off t ↔ x ∈ T.kids t := by
  constructor
  · intro hcheck
    obtain ⟨l, hl, hloc⟩ := h.exists_kid ht (h.draws.kept.xor_lt x (h.off_lt_size ht hk)) hcheck
    obtain rfl := xor_label_inj.mp hloc
    exact hl
  · intro hx
    exact h.check_cons (t := t) (l := x) ⟨ht, hx⟩

/-! ### Chains -/

theorem links_chain (h : p.Lays c T off) (ht : T.Mem t) : p.Links (off t) (T.chain t) := by
  intro l hl
  rw [← Outline.locate_sib h.root, h.slot_eq (Outline.mem_sib hl ht), Outline.slot_sibling]

theorem child_eq (h : p.Lays c T off) (ht : T.Mem t) :
    (p.slot (locate off t)).child = (T.chain t).headD 0 := by
  rw [h.slot_eq ht, Outline.slot_child]

/-- **Following the links of a node yields its chain.** -/
theorem chain_eq (h : p.Lays c T off) (ht : T.Mem t) (hk : T.chain t ≠ []) :
    p.chain (locate off t) (off t) = T.chain t := by
  have hlinks := h.links_chain ht
  have hlabels := h.sound.isLabels_chain t
  unfold chain
  rw [h.child_eq ht]
  obtain ⟨l, ls, hls⟩ := List.exists_cons_of_ne_nil hk
  rw [hls] at hlinks hlabels ⊢
  exact chainFrom_eq hlinks hlabels hlabels.length_le

end Lays

end Pool

end DoubleArrayTrie
