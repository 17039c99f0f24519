import DoubleArrayTrie.Proofs.Trie.Contents

/-!
# The order of branches

The *branches* of a node are the labels of its children that are no terminals, in the order of their
chain. Terminals come and go with the values of nodes and the encoding, but do not touch the order of
the branches: a key that is stored adds at most one of them to the chain of a node, where
`insertLabel` puts it, and a key that is erased only takes some away.

* `Outline.sprouts_store`: the branches after a value is stored.
* `Outline.branches_erase`: the branches after a key is erased.
-/

namespace DoubleArrayTrie

variable {ls ms : List UInt8} {x : UInt8} {o : Bool}

/-! ### Labels that are no terminals -/

theorem filter_ne_zero_of_not_mem (h0 : 0 ∉ ls) : ls.filter (· ≠ 0) = ls := by
  refine List.filter_eq_self.mpr fun l hl => decide_eq_true ?_
  rintro rfl
  exact h0 hl

/-- A terminal may come first, where a new label is put after it. -/
theorem filter_insertLabel (h : IsLabels ls) (hx : x ≠ 0) :
    (insertLabel o x ls).filter (· ≠ 0) = insertLabel o x (ls.filter (· ≠ 0)) := by
  have hclean : ∀ {ms}, 0 ∉ ms → (insertLabel o x ms).filter (· ≠ 0) = insertLabel o x ms := by
    intro ms h0
    refine filter_ne_zero_of_not_mem ?_
    rw [mem_insertLabel, not_or]
    exact ⟨hx.symm, h0⟩
  by_cases h0 : 0 ∈ ls
  · obtain ⟨ls, rfl⟩ := h.exists_cons h0
    have htail : 0 ∉ ls := h.tail
    have hfirst : insertLabel o x (0 :: ls) = 0 :: insertLabel o x ls := if_pos (.inl rfl)
    rw [hfirst, List.filter_cons_of_neg (by simp), List.filter_cons_of_neg (by simp), hclean htail,
      filter_ne_zero_of_not_mem htail]
  · rw [filter_ne_zero_of_not_mem h0, hclean h0]

/-- A new terminal comes first. -/
theorem insertLabel_zero (h0 : 0 ∉ ls) : insertLabel o 0 ls = 0 :: ls := by
  rcases ls with _ | ⟨l, ls⟩
  · rfl
  · rw [List.mem_cons, not_or] at h0
    unfold insertLabel
    rw [if_neg]
    rintro (hl | ⟨-, hl⟩)
    · exact h0.1 hl.symm
    · exact h0.1 (UInt8.le_antisymm (UInt8.zero_le) hl)

/-- Where siblings are in no order a new label comes before all that are no terminals. -/
theorem insertLabel_false (h0 : 0 ∉ ls) : insertLabel false x ls = x :: ls := by
  rcases ls with _ | ⟨l, ls⟩
  · rfl
  · rw [List.mem_cons, not_or] at h0
    unfold insertLabel
    rw [if_neg]
    rintro (hl | ⟨hfalse, -⟩)
    · exact h0.1 hl.symm
    · simp at hfalse

/-- The labels are the same, or there is a new one where `insertLabel` puts it. -/
def Sprouts (ordered : Bool) (ls ms : List UInt8) : Prop :=
  ms = ls ∨ ∃ x, x ∉ ls ∧ ms = insertLabel ordered x ls

namespace Outline

variable {c : Config} {T : Outline} {q t : Trail}

/-- The labels of the children of a node that are no terminals, in the order of the chain. -/
def branches (T : Outline) (q : Trail) : List UInt8 := (T.kids q).filter (· ≠ 0)

theorem zero_notMem_branches (T : Outline) (q : Trail) : 0 ∉ T.branches q := by
  simp [branches]

theorem branches_congr {T' : Outline} (h : T'.kids t = T.kids t) : T'.branches t = T.branches t := by
  unfold branches
  rw [h]

@[simp] theorem branches_setWord (T : Outline) (q : Trail) (w : Int) :
    (T.setWord q w).branches = T.branches := rfl

theorem branches_graft_of_ne (x : UInt8) (h : t ≠ q) :
    (T.graft c q x).branches t = T.branches t :=
  branches_congr (kids_graft_of_ne x h)

theorem branches_graft_self (hT : T.Sound c) (hx : x ≠ 0) :
    (T.graft c q x).branches q = insertLabel c.ordered x (T.branches q) := by
  unfold branches
  rw [kids_graft_self]
  exact filter_insertLabel (hT.labels q) hx

theorem branches_graft_zero (h0 : 0 ∉ T.kids q) (t : Trail) :
    (T.graft c q 0).branches t = T.branches t := by
  by_cases ht : t = q
  · subst ht
    unfold branches
    rw [kids_graft_self, insertLabel_zero h0]
    exact List.filter_cons_of_neg (by simp)
  · exact branches_graft_of_ne 0 ht

theorem branches_ensure_zero (T : Outline) (q t : Trail) :
    (T.ensure c q 0).branches t = T.branches t := by
  unfold ensure
  split_ifs with h0
  · rfl
  · exact branches_graft_zero h0 t

theorem branches_openLeaf (T : Outline) (q t : Trail) :
    (T.openLeaf c q).branches t = T.branches t := by
  unfold openLeaf
  cases hleaf : T.leafValue? c q with
  | none => rfl
  | some w =>
    have hkids := (leafValue?_eq_some hleaf).2.1
    rw [branches_setWord]
    exact branches_graft_zero (by rw [hkids]; simp) t

/-! ### Storing a key -/

theorem sprouts_step (hT : T.Sound c) (hq : T.Mem q) (h0 : 0 ∉ q) (hx : x ≠ 0) :
    Sprouts c.ordered (T.branches q) (((T.openLeaf c q).ensure c q x).branches q) := by
  unfold ensure
  split_ifs with hmem
  · exact .inl (branches_openLeaf T q q)
  · refine .inr ⟨x, fun hbranch => hmem ?_, ?_⟩
    · rw [← branches_openLeaf T q q (c := c)] at hbranch
      exact List.mem_of_mem_filter hbranch
    · rw [branches_graft_self (hT.openLeaf hq h0) hx, branches_openLeaf]

/-- The way down from a node changes nothing that is not below it. -/
theorem branches_extend_of_not_suffix (T : Outline) (ls : List UInt8) (h : ¬ q <:+ t) :
    (T.extend c q ls).branches t = T.branches t := by
  induction ls generalizing T q with
  | nil => rfl
  | cons x ls ih =>
    have hne : t ≠ q := by
      rintro rfl
      exact h List.suffix_rfl
    unfold extend
    rw [ih _ fun hx => h ((List.suffix_cons x q).trans hx), branches_congr (kids_step_of_ne x hne)]

theorem sprouts_extend (hT : T.Sound c) (hq : T.Mem q) (h0 : 0 ∉ q) (hls : 0 ∉ ls) (t : Trail) :
    Sprouts c.ordered (T.branches t) ((T.extend c q ls).branches t) := by
  induction ls generalizing T q with
  | nil => exact .inl rfl
  | cons x ls ih =>
    rw [List.mem_cons, not_or] at hls
    have hx := Ne.symm hls.1
    unfold extend
    by_cases ht : t = q
    · -- the rest of the way is below this node
      subst ht
      rw [branches_extend_of_not_suffix _ ls fun hle => by have := hle.length_le; simp at this]
      exact sprouts_step hT hq h0 hx
    · have hopen := hT.openLeaf hq h0
      have hmem := (mem_openLeaf hT hq h0).mpr hq
      have hxq : 0 ∉ x :: q := by
        rw [List.mem_cons, not_or]
        exact ⟨hls.1, h0⟩
      rw [← branches_congr (kids_step_of_ne (c := c) x ht)]
      exact ih (hopen.ensure hmem (.inr hx) (ne_terminal h0)) (mem_ensure_self hopen hmem x) hxq hls.2

theorem branches_setValue (T : Outline) (q : Trail) (w : Int) (t : Trail) :
    (T.setValue c q w).branches t = T.branches t := by
  unfold setValue
  split_ifs
  · rfl
  · exact branches_ensure_zero T q t

/-- **A key that is stored adds at most one branch to a node.** -/
theorem sprouts_store {key : Key} (hT : T.Sound c) (h0 : 0 ∉ key) (w : Int) (t : Trail) :
    Sprouts c.ordered (T.branches t) ((T.store c key w).branches t) := by
  unfold store
  rw [branches_setValue]
  exact sprouts_extend hT (q := []) trivial (by simp) h0 t

/-! ### Erasing a key -/

/-- **A key that is erased adds no branch** and leaves the others in their order. -/
theorem branches_erase (T : Outline) (q t : Trail) :
    ((T.erase c q).branches t).Sublist (T.branches t) := (kids_prune T _ t).filter _

end Outline

end DoubleArrayTrie
