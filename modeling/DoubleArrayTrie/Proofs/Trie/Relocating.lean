import DoubleArrayTrie.Proofs.Trie.Joining
import DoubleArrayTrie.Proofs.Trie.Yielding

/-!
# A conflict is settled

When the slot of a new child is taken, the owner of that slot is a node outside of the root's block,
and not the node that asks. Whichever of the two has its children moved, the outline is in the end
the one with the new child, laid out at other offsets.

* `Lays.contest`: who the owner is.
* `Lays.place`: the room that is found is not the slot of any node.
* `Lays.resolve`: what a relocation comes to, and which of the two moves.
-/

namespace DoubleArrayTrie

namespace Pool

variable {c : Config} {p : Pool} {T : Outline} {off : Trail → Nat} {q u : Trail} {x y : UInt8}
  {ls : List UInt8}

namespace Lays

/-- The offset at which the children of a node are found room for is out of the root's block, and
their slots there are those of no node. -/
theorem place (h : p.Lays c T off) (hls : IsLabels ls) (hne : ls ≠ []) :
    ∃ k, (p.place c ls).2 ^^^ (ls.headD 0).toNat = k ∧ (p.place c ls).1.Lays c T off ∧
      k < (p.place c ls).1.size ∧ blockSize ≤ k ∧
      ∀ l ∈ ls, ∀ t, T.Mem t → locate off t ≠ k ^^^ l.toNat := by
  obtain ⟨hkept, hlive, hroomy⟩ := h.draws.kept.place hls hne
  have hdraws := h.draws.of_live hkept hlive
  refine ⟨_, rfl, ⟨h.sound, hdraws, h.root, h.deep⟩, hkept.xor_lt _ hroomy.free.2.1, ?_,
    fun l hl t ht => hdraws.ne_of_free (hroomy.all l hl) ht⟩
  rw [blockSize_le_iff, blockOf_xor]
  exact blockSize_le_iff.mp hroomy.le

/-- **The owner of a slot that is taken** when a node asks for it is another node, and not the
root. -/
theorem contest (h : p.Lays c T off) (hq : T.Mem q) (hq0 : q ≠ []) (hkids : T.kids q ≠ [])
    (hx : x ∉ T.kids q) (hcheck : 0 ≤ (p.slot (off q ^^^ x.toNat)).check) :
    ∃ u y, Contest T off q x u y ∧ (p.slot (off q ^^^ x.toNat)).check = locate off u := by
  have hlt := h.draws.kept.xor_lt x (h.off_lt_size hq (.inr hkids))
  obtain ⟨v, hv, hloc, hslot⟩ := h.draws.exists_of_check hlt hcheck
  rcases v with _ | ⟨y, u⟩
  · -- the root names no parent
    rw [hslot] at hcheck
    exact absurd hcheck (by decide : ¬ (0 : Int) ≤ -1)
  · have howner := h.check_cons hv
    rw [hloc] at howner
    have hdeep : blockSize ≤ locate off (y :: u) := by
      rw [hloc, blockSize_le_iff, blockOf_xor]
      exact blockSize_le_iff.mp (h.deep q hq0 hkids)
    refine ⟨u, y, ⟨hq, hq0, hkids, hx, hv.1, (h.blockSize_le_locate hv).mp hdeep, ?_, hv.2,
      hloc.symm⟩, howner⟩
    rintro rfl
    exact hx ((h.check_eq_iff hq (.inr hkids) x).mp howner)

/-- The children of the node that asks move. -/
theorem moveMine (h : p.Lays c T off) (hq : T.Mem q) (hq0 : q ≠ []) (hkids : T.kids q ≠ [])
    (hx : x ∉ T.kids q) {k : Nat} (hsize : k < p.size) (hk : blockSize ≤ k)
    (hfresh : ∀ l ∈ insertLabel c.ordered x (T.kids q), ∀ t, T.Mem t →
      locate off t ≠ k ^^^ l.toNat) :
    (((if (insertLabel c.ordered x (T.kids q)).headD 0 = x then p.setChild (locate off q) x
      else p).setBase (locate off q) (c.encoding.ofOffset k)).moveWith c (locate off q) (off q) k x
        (insertLabel c.ordered x (T.kids q))).Lays c (T.graft c q x) (Function.update off q k) := by
  have hstart := h.joining (k := k) hq hx hq0 hkids
  have hsize' : k < ((if (insertLabel c.ordered x (T.kids q)).headD 0 = x
      then p.setChild (locate off q) x else p).setBase (locate off q)
        (c.encoding.ofOffset k)).size := by
    split_ifs <;> exact hsize
  rw [← Outline.kids_graft_self] at hstart hsize' hfresh ⊢
  have hend := hstart.moveWith h.sound hq hx (List.nil_append _).symm hq0 hsize' hfresh
  refine hend.lays h.sound hq hx hq0 ?_ h.root h.deep hk
  rintro r rfl
  exact hkids (h.sound.terminal r)

/-- The children of the owner move. -/
theorem moveTheirs (h : p.Lays c T off) (hc : Contest T off q x u y) {k : Nat} (hsize : k < p.size)
    (hk : blockSize ≤ k) (hfresh : ∀ l ∈ T.kids u, ∀ t, T.Mem t → locate off t ≠ k ^^^ l.toNat) :
    ((p.setBase (locate off u) (c.encoding.ofOffset k)).moveAway c (locate off u) (off u) k
      (T.kids u) ⟨locate off q, off q, x⟩).Lays c (T.graft c q x) (Function.update off u k) := by
  have hend := (h.yielding hc (k := k)).moveAway h.sound hc (List.nil_append _).symm hsize hfresh
  rw [mix_nil] at hend
  exact hend.lays h.sound hc h.root h.deep hk

/-- **A conflict over a slot is settled**: the children of one of the two nodes move to another offset,
and the new child has its slot. -/
theorem resolve (h : p.Lays c T off) (hq : T.Mem q) (hq0 : q ≠ []) (hkids : T.kids q ≠ [])
    (hx : x ∉ T.kids q) (hcheck : 0 ≤ (p.slot (off q ^^^ x.toNat)).check) :
    ∃ u y k, Contest T off q x u y ∧ (p.slot (off q ^^^ x.toNat)).check = locate off u ∧
      (p.relocate c ⟨locate off q, off q, x⟩).1.Lays c (T.graft c q x)
        (Function.update off (if (T.kids q).length < (T.kids u).length then q else u) k) ∧
      (p.relocate c ⟨locate off q, off q, x⟩).2 = locate
        (Function.update off (if (T.kids q).length < (T.kids u).length then q else u) k) (x :: q) := by
  obtain ⟨u, y, hc, howner⟩ := h.contest hq hq0 hkids hx hcheck
  have hkidsu : T.kids u ≠ [] := List.ne_nil_of_mem hc.held
  have hmine : p.chain (locate off q) (off q) = T.kids q := by
    have hchain : T.chain q = T.kids q := if_neg hq0
    rw [← hchain]
    exact h.chain_eq hq (hchain ▸ hkids)
  have htheirs : p.chain (locate off u) (off u) = T.kids u := by
    have hchain : T.chain u = T.kids u := if_neg hc.owner_ne
    rw [← hchain]
    exact h.chain_eq hc.owner (hchain ▸ hkidsu)
  unfold Pool.relocate Request.slot
  dsimp only
  rw [howner, Int.toNat_natCast, h.offsetOf_eq hc.owner (.inr hkidsu), hmine, htheirs]
  by_cases hfew : (T.kids q).length < (T.kids u).length
  · obtain ⟨k, hkeq, hp', hsize, hk, hfresh⟩ := h.place
      ((h.sound.labels q).insertLabel hx c.ordered) insertLabel_ne_nil
    refine ⟨u, y, k, hc, rfl, ?_⟩
    rw [if_pos hfew, if_pos hfew, hkeq]
    exact ⟨hp'.moveMine hq hq0 hkids hx hsize hk hfresh, (locate_update_cons q x).symm⟩
  · obtain ⟨k, hkeq, hp', hsize, hk, hfresh⟩ := h.place (h.sound.labels u) hkidsu
    refine ⟨u, y, k, hc, rfl, ?_⟩
    rw [if_neg hfew, if_neg hfew, hkeq]
    refine ⟨hp'.moveTheirs hc hsize hk hfresh, ?_⟩
    rw [locate_cons, Function.update_of_ne hc.apart]

/-- Whichever of the two it is. -/
theorem relocate (h : p.Lays c T off) (hq : T.Mem q) (hq0 : q ≠ []) (hkids : T.kids q ≠ [])
    (hx : x ∉ T.kids q) (hcheck : 0 ≤ (p.slot (off q ^^^ x.toNat)).check) :
    ∃ off', (p.relocate c ⟨locate off q, off q, x⟩).1.Lays c (T.graft c q x) off' ∧
      (p.relocate c ⟨locate off q, off q, x⟩).2 = locate off' (x :: q) := by
  obtain ⟨u, y, k, -, -, hlays, hslot⟩ := h.resolve hq hq0 hkids hx hcheck
  exact ⟨_, hlays, hslot⟩

end Lays

end Pool

end DoubleArrayTrie
