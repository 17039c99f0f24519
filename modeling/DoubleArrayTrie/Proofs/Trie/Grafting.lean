import DoubleArrayTrie.Proofs.Trie.Shifting

/-!
# A new child

When the slot of a new child is drawn, its label is still to be linked in. What the slots hold then
is what the outline with the new child says.

* `Draws.graft`: the label of a new child is linked into the chain of its parent.
* `Lays.graft_free`, `Lays.graft_leaf`: a free slot becomes a child of a node with children, or the
  first child of a leaf.
-/

namespace DoubleArrayTrie

namespace Outline

variable {c : Config} {T : Outline} {off loc : Trail → Nat} {q v : Trail} {l x : UInt8}

/-- A slot outside of the chain of node `q` names the same sibling when the chain gets longer. -/
theorem Sound.slot_sibling_of_ne (hT : T.Sound c) (hmem : T.Mem v) (hv : ∀ l, v ≠ sib q l) :
    ((T.graft c q x).slot c off loc v).sibling = (T.slot c off loc v).sibling := by
  rcases v with _ | ⟨l, u⟩
  · have hq : q ≠ [] := by
      rintro rfl
      exact hv 0 rfl
    simp only [slot, kids_graft_of_ne x (Ne.symm hq)]
  · have huq : u ≠ q := by
      rintro rfl
      exact hv l (hT.sib_eq_cons hmem.2).symm
    simp only [slot, kids_graft_of_ne x huq]

/-- What the slot of a new child holds. -/
theorem slot_graft_new (h : T.kids (x :: q) = []) : (T.graft c q x).slot c off loc (x :: q) =
    ⟨c.encoding.fresh x, loc q, nextLabel x ((T.graft c q x).kids q), 0⟩ := by
  have hkids : (T.graft c q x).kids (x :: q) = [] := by
    rw [kids_graft_of_ne x (by simp), h]
  simp only [slot, hkids, if_true, word_graft_self, List.headD_nil]

/-- A leaf has no children whose slots would change with its offset, -/
theorem locate_update_leaf (hkids : T.kids q = []) (k : Nat) (hv : T.Mem v) :
    locate (Function.update off q k) v = locate off v := by
  refine Pool.locate_update_of_ne ?_
  rintro l rfl
  have hl := hv.2
  rw [hkids] at hl
  simp at hl

/-- so the slots of other nodes hold what they held, -/
theorem slot_update_leaf (hkids : T.kids q = []) (k : Nat) (hv : T.Mem v) (hvq : v ≠ q) :
    T.slot c (Function.update off q k) (locate (Function.update off q k)) v =
      T.slot c off (locate off) v := by
  rcases v with _ | ⟨l, u⟩
  · simp only [slot, Function.update_of_ne hvq]
  · simp only [slot, Function.update_of_ne hvq, locate_update_leaf hkids k hv.1]

/-- and so does the slot of the leaf but for its word. -/
theorem slot_update_leaf_self (hkids : T.kids q = []) (k : Nat) (hq : T.Mem q) (hq0 : q ≠ [])
    (b : Int) : { T.slot c off (locate off) q with base := b } =
      { T.slot c (Function.update off q k) (locate (Function.update off q k)) q with base := b } := by
  obtain ⟨l, u, rfl⟩ := List.exists_cons_of_ne_nil hq0
  simp only [slot, locate_update_leaf hkids k hq.1]

end Outline

namespace Pool

variable {c : Config} {p : Pool} {T : Outline} {off loc : Trail → Nat} {data : Trail → Slot}
  {q : Trail} {x : UInt8} {k e : Nat}

/-- **The label of a new child is linked in**: the slots hold what the outline with the child says. -/
theorem Draws.graft (off : Trail → Nat)
    (h : p.Draws c (fun v => T.Mem v ∨ v = x :: q) loc data) (hT : T.Sound c)
    (hq : T.Mem q) (hx : x ∉ T.kids q) (hroot : q ≠ [] ∨ x ≠ 0)
    (hlocs : ∀ l ∈ T.chain q, loc (sib q l) = k ^^^ l.toNat) (hxloc : loc (x :: q) = k ^^^ x.toNat)
    (hself : data q = { T.slot c off loc q with base := c.encoding.ofOffset (off q) })
    (hdata : ∀ v, T.Mem v → v ≠ q → data v = T.slot c off loc v) :
    ∃ data', (p.linkChild c.ordered (loc q) k x (!(T.chain q).isEmpty)).Draws c
        (fun v => T.Mem v ∨ v = x :: q) loc data' ∧
      (∀ v, T.Mem v → data' v = (T.graft c q x).slot c off loc v) ∧
      data' (x :: q) = { data (x :: q) with
        sibling := ((T.graft c q x).slot c off loc (x :: q)).sibling } := by
  have hsib : ∀ v, T.Mem v → (data v).sibling = (T.slot c off loc v).sibling := by
    intro v hv
    by_cases hvq : v = q
    · rw [hvq, hself]
    · rw [hdata v hv hvq]
  have hsibx : sib q x = x :: q := Outline.sib_eq_cons hroot
  have hxchain : x ∉ T.chain q := fun hm =>
    hx (Outline.mem_kids_of_mem_chain hm (by rw [hsibx]; simp))
  have hchain : Draws.Chain (fun v => T.Mem v ∨ v = x :: q) loc data q k (T.chain q) :=
    ⟨hT.isLabels_chain q, .inl hq, fun l hl => .inl (Outline.mem_sib hl hq), hlocs,
      by rw [hself, Outline.slot_child], fun l hl => by
        rw [hsib _ (Outline.mem_sib hl hq), Outline.slot_sibling]⟩
  obtain ⟨data', hdraws, hrel⟩ := h.linkChild hchain hxchain hroot (.inr rfl) hxloc c.ordered
  have hnewchain := Outline.chain_graft_self c T q x
  rw [← hnewchain] at hrel
  have hxmem : x ∈ (T.graft c q x).chain q := by
    rw [hnewchain, mem_insertLabel]
    exact .inl rfl
  refine ⟨data', hdraws, fun v hv => ?_, ?_⟩
  · have hvx : v ≠ x :: q := by
      rintro rfl
      exact hx hv.2
    have hsibling : (data' v).sibling = ((T.graft c q x).slot c off loc v).sibling := by
      by_cases hex : ∃ l, v = sib q l
      · obtain ⟨l, rfl⟩ := hex
        have hl : l ∈ (T.graft c q x).chain q := by
          rw [hnewchain, mem_insertLabel]
          exact .inr (Outline.mem_chain_of_mem_sib hv)
        rw [hrel.sibling l hl, Outline.slot_sibling]
      · have hne : ∀ l, v ≠ sib q l := fun l hl => hex ⟨l, hl⟩
        rw [hrel.sibling_of_ne v hne, hsib v hv, hT.slot_sibling_of_ne hv hne]
    by_cases hvq : v = q
    · subst hvq
      have hbase : ((T.graft c v x).slot c off loc v).base = c.encoding.ofOffset (off v) := by
        rcases v with _ | ⟨l, u⟩
        · rfl
        · simp only [Outline.slot, Outline.kids_graft_self, insertLabel_ne_nil, if_false]
      have hcheck : ((T.graft c v x).slot c off loc v).check = (T.slot c off loc v).check := by
        cases v <;> rfl
      refine Slot.ext ?_ ?_ hsibling ?_
      · rw [hrel.base, hself, hbase]
      · rw [hrel.check, hself, hcheck]
      · rw [hrel.child, Outline.slot_child]
    · have hsame : ∀ s, { T.slot c off loc v with sibling := s } =
          { (T.graft c q x).slot c off loc v with sibling := s } := by
        intro s
        rcases v with _ | ⟨l, u⟩
        · rfl
        · simp only [Outline.slot, Outline.kids_graft_of_ne x hvq, Outline.word_graft_of_ne hvx]
      have hold : data' v = { T.slot c off loc v with sibling := (data' v).sibling } := by
        rw [← hdata v hv hvq]
        exact Slot.ext (hrel.base v) (hrel.check v) rfl (hrel.child_of_ne v hvq)
      rw [hold, hsame, hsibling]
  · refine Slot.ext (hrel.base _) (hrel.check _) ?_ (hrel.child_of_ne _ (by simp))
    rw [← hsibx, hrel.sibling x hxmem, Outline.slot_sibling]

/-- **A free slot at the offset of a node becomes a child of the node.** -/
theorem Lays.graft_free (h : p.Lays c T off) (hq : T.Mem q) (hk : q = [] ∨ T.kids q ≠ [])
    (hx : x ∉ T.kids q) (hroot : q ≠ [] ∨ x ≠ 0) (hterm : ∀ r, q ≠ 0 :: r)
    (hfree : p.Free (off q ^^^ x.toNat)) :
    ((p.occupy c (off q ^^^ x.toNat) x (locate off q)).linkChild c.ordered (locate off q) (off q) x
      true).Lays c (T.graft c q x) off := by
  have hsound := h.sound.graft hq hx hroot hterm
  have hnew : ¬ T.Mem (x :: q) := fun hm => hx hm.2
  have hdraws := h.draws.occupy hfree hnew x (locate off q)
  have hloc : Function.update (locate off) (x :: q) (off q ^^^ x.toNat) = locate off :=
    Function.update_eq_self ..
  rw [hloc] at hdraws
  have hbase : T.slot c off (locate off) q =
      { T.slot c off (locate off) q with base := c.encoding.ofOffset (off q) } := by
    rcases q with _ | ⟨l, u⟩
    · rfl
    · simp only [Outline.slot, hk.resolve_left (by simp), if_false]
  have hne : ∀ v, T.Mem v → v ≠ x :: q := by
    rintro v hv rfl
    exact hnew hv
  obtain ⟨data', hdraws', hold, hxdata⟩ := hdraws.graft off h.sound hq hx hroot
    (fun l _ => Outline.locate_sib h.root q l) rfl
    (by rw [Function.update_of_ne (hne q hq), ← hbase])
    fun v hv _ => Function.update_of_ne (hne v hv) ..
  have hchain : (!(T.chain q).isEmpty) = true := by
    unfold Outline.chain
    split_ifs with hq0
    · rfl
    · simpa using hk.resolve_left hq0
  rw [hchain] at hdraws'
  refine ⟨hsound, hdraws'.congr (fun v => h.sound.mem_graft hq hx v) (fun _ _ => rfl)
    fun v hv => ?_, h.root, fun t ht htkids => ?_⟩
  · rcases hv with hv | rfl
    · exact (hold v hv).symm
    · rw [hxdata, Function.update_self, Outline.slot_graft_new (h.sound.outside _ hnew)]
  · by_cases htq : t = q
    · subst htq
      exact h.deep t ht (hk.resolve_left ht)
    · rw [Outline.kids_graft_of_ne x htq] at htkids
      exact h.deep t ht htkids

/-- **A free slot becomes the first child of a leaf**, which gets its offset from it. -/
theorem Lays.graft_leaf (h : p.Lays c T off) (hq : T.Mem q) (hq0 : q ≠ []) (hkids : T.kids q = [])
    (hterm : ∀ r, q ≠ 0 :: r) (hfree : p.Free e) (he : blockSize ≤ e) :
    (((p.occupy c e x (locate off q)).setBase (locate off q)
      (c.encoding.ofOffset (e ^^^ x.toNat))).linkChild c.ordered (locate off q) (e ^^^ x.toNat) x
        false).Lays c (T.graft c q x) (Function.update off q (e ^^^ x.toNat)) := by
  have hx : x ∉ T.kids q := by rw [hkids]; simp
  have hsound := h.sound.graft hq hx (.inl hq0) hterm
  have hnew : ¬ T.Mem (x :: q) := fun hm => hx hm.2
  have hne : ∀ v, T.Mem v → v ≠ x :: q := by
    rintro v hv rfl
    exact hnew hv
  generalize hoff : Function.update off q (e ^^^ x.toNat) = off'
  have hoffq : off' q = e ^^^ x.toNat := by rw [← hoff, Function.update_self]
  have hoffne : ∀ v, v ≠ q → off' v = off v := fun v hv => by rw [← hoff, Function.update_of_ne hv]
  have hlocold : ∀ v, T.Mem v → locate off' v = locate off v := fun v hv => by
    rw [← hoff, Outline.locate_update_leaf hkids _ hv]
  have hloc : ∀ v, (T.Mem v ∨ v = x :: q) →
      locate off' v = Function.update (locate off) (x :: q) e v := by
    rintro v (hv | rfl)
    · rw [Function.update_of_ne (hne v hv), hlocold v hv]
    · rw [Function.update_self, locate_cons, hoffq, xor_label_cancel]
  have hdraws := (h.draws.occupy hfree hnew x (locate off q)).setBase (.inl hq)
    (c.encoding.ofOffset (e ^^^ x.toNat))
  rw [Function.update_of_ne (hne q hq), Function.update_of_ne (hne q hq)] at hdraws
  have hdraws' := hdraws.congr (fun _ => Iff.rfl) hloc fun _ _ => rfl
  obtain ⟨data', hlinked, hold, hxdata⟩ := hdraws'.graft off' (k := e ^^^ x.toNat) h.sound hq
    hx (.inl hq0) (fun l hl => by
      obtain ⟨a, u, rfl⟩ := List.exists_cons_of_ne_nil hq0
      rw [Outline.chain_cons, hkids] at hl
      simp at hl)
    (by rw [locate_cons, hoffq])
    (by rw [Function.update_self, hoffq, ← hoff, ← Outline.slot_update_leaf_self hkids _ hq hq0])
    fun v hv hvq => by
      rw [Function.update_of_ne hvq, Function.update_of_ne (hne v hv), ← hoff,
        Outline.slot_update_leaf hkids _ hv hvq]
  have hchain : (!(T.chain q).isEmpty) = false := by
    unfold Outline.chain
    rw [if_neg hq0, hkids]
    rfl
  rw [hchain, hlocold q hq] at hlinked
  refine ⟨hsound, hlinked.congr (fun v => h.sound.mem_graft hq hx v) (fun _ _ => rfl)
    fun v hv => ?_, ?_, fun t ht htkids => ?_⟩
  · rcases hv with hv | rfl
    · exact (hold v hv).symm
    · rw [hxdata, Function.update_of_ne (by simp), Function.update_self,
        Outline.slot_graft_new (h.sound.outside _ hnew), hlocold q hq]
  · rw [hoffne [] (Ne.symm hq0), h.root]
  · by_cases htq : t = q
    · rw [htq, hoffq, blockSize_le_iff, blockOf_xor]
      exact blockSize_le_iff.mp he
    · rw [Outline.kids_graft_of_ne x htq] at htkids
      rw [hoffne t htq]
      exact h.deep t ht htkids

end Pool

end DoubleArrayTrie
