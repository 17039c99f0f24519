import Mathlib.Algebra.BigOperators.Ring.Finset
import Mathlib.Data.Set.Card
import DoubleArrayTrie.Proofs.Pool.WellKept

/-!
# Numbers of slots

Each block counts its free slots, and what the blocks count makes up the number of all free slots,
which a trie tells as a word.

* `WellKept.sum_free`: the counters of the blocks together.
* `WellKept.card_used`: the slots in use and the free ones are all slots.
-/

namespace DoubleArrayTrie

namespace Pool

variable {c : Config} {p : Pool}

instance : DecidablePred p.Free := fun e =>
  inferInstanceAs (Decidable (0 < e ∧ e < p.size ∧ (p.slot e).check < 0))

/-- The blocks count their free slots. -/
theorem WellKept.sum_free (h : p.WellKept c) :
    ((List.range p.blocksInUse).map fun b => (p.block b).free).sum =
      (((Finset.range p.size).filter p.Free).card : Int) := by
  have hblock : ∀ b ∈ Finset.range p.blocksInUse, (p.block b).free =
      ((((Finset.range p.size).filter p.Free).filter fun e => blockOf e = b).card : Int) := by
    intro b hb
    obtain ⟨l, hl⟩ := h.freeLists b (Finset.mem_range.mp hb)
    have hset : ((Finset.range p.size).filter p.Free).filter (fun e => blockOf e = b) =
        l.toFinset := by
      ext e
      rw [Finset.mem_filter, Finset.mem_filter, Finset.mem_range, List.mem_toFinset, hl.mem_iff e]
      exact and_congr_left fun _ => and_iff_right_of_imp fun hfree => hfree.2.1
    rw [hl.free_eq, hset, List.toFinset_card_of_nodup hl.nodup]
  have hmaps : Set.MapsTo blockOf ((Finset.range p.size).filter p.Free)
      (Finset.range p.blocksInUse) := by
    intro e he
    rw [Finset.coe_filter] at he
    exact Finset.mem_coe.mpr (Finset.mem_range.mpr (h.blockOf_lt.mpr he.2.2.1))
  have hsum : ((List.range p.blocksInUse).map fun b => (p.block b).free).sum =
      ∑ b ∈ Finset.range p.blocksInUse, (p.block b).free := rfl
  rw [hsum, Finset.sum_congr rfl hblock, Finset.card_eq_sum_card_fiberwise hmaps, Nat.cast_sum]

/-- The root, the other slots in use and the free ones are all slots. -/
theorem WellKept.card_used (h : p.WellKept c) :
    {n | n ≠ 0 ∧ n < p.size ∧ (n = 0 ∨ 0 ≤ (p.slot n).check)}.ncard + 1 +
      ((Finset.range p.size).filter p.Free).card = p.size := by
  have hpos : 0 < p.size := lt_of_lt_of_le (by decide) h.size_pos
  have hset : {n | n ≠ 0 ∧ n < p.size ∧ (n = 0 ∨ 0 ≤ (p.slot n).check)} =
      (((Finset.range p.size).filter fun e => ¬ p.Free e).erase 0 : Finset Nat) := by
    ext n
    rw [Set.mem_ofPred_eq, Finset.mem_coe, Finset.mem_erase, Finset.mem_filter, Finset.mem_range]
    unfold Free
    omega
  have hroot : 0 ∈ (Finset.range p.size).filter fun e => ¬ p.Free e :=
    Finset.mem_filter.mpr ⟨Finset.mem_range.mpr hpos, fun hfree => lt_irrefl 0 hfree.1⟩
  have hsplit := Finset.card_filter_add_card_filter_not (s := Finset.range p.size) p.Free
  rw [hset, Set.ncard_coe_finset, Finset.card_erase_add_one hroot, Nat.add_comm, hsplit,
    Finset.card_range]

/-- The number of free slots that a trie tells is theirs, if it is a word. -/
theorem WellKept.freeSlots_eq (h : p.WellKept c) (hsize : p.size < 18446744073709551616) :
    p.freeSlots = ((Finset.range p.size).filter p.Free).card := by
  have hle := Finset.card_filter_le (Finset.range p.size) p.Free
  rw [Finset.card_range] at hle
  have hfold : (List.range p.blocksInUse).foldl (fun total b => total + (p.block b).free) 0 =
      (((Finset.range p.size).filter p.Free).card : Int) := by
    rw [← h.sum_free, List.sum_eq_foldl, List.foldl_map]
  unfold freeSlots
  rw [hfold]
  omega

end Pool

end DoubleArrayTrie
