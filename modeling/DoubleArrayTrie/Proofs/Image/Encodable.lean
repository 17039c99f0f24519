import DoubleArrayTrie.Proofs.Lockstep
import DoubleArrayTrie.Proofs.Refinement
import DoubleArrayTrie.Proofs.Image.RoundTrip

/-!
# Tries fit into images

All numbers that a trie writes are bounded by its capacity, by the number of trials, or by the range
of the values that were stored. So as long as the capacity and the number of trials fit, all fit.

* `Outline.Holds.words`: the word of a leaf is a value.
* `WellKept.block_fits`, `Lays.slot_fits`: records fit.
* `Trie.Holds.encodable`: so does a trie.
-/

namespace DoubleArrayTrie

open Integer

/-! ### Words -/

namespace Outline

variable {c : Config} {T : Outline} {M : Trail → Option Int32} {t q : Trail} {l : UInt8}

/-- Terminals have no children, so that a terminal is on no way but its own. -/
theorem Sound.zero_notMem (hT : T.Sound c) (ht : T.Mem (l :: q)) : 0 ∉ q := by
  intro h0
  obtain ⟨u, r, rfl⟩ := List.append_of_mem h0
  have hterm : ∀ (x : UInt8) (r : Trail), T.Mem (x :: 0 :: r) → False := by
    intro x r hx
    have hkid := hx.2
    rw [hT.terminal] at hkid
    simp at hkid
  rcases List.eq_nil_or_concat u with rfl | ⟨u, x, rfl⟩
  · exact hterm l r ht
  · refine hterm x r (mem_of_suffix ht ⟨l :: u, ?_⟩)
    simp

/-- The words of leaves are numbers of 32 bits. -/
def Words (T : Outline) : Prop :=
  ∀ l q, T.Mem (l :: q) → T.kids (l :: q) = [] → ∃ v : Int32, T.word (l :: q) = v.toInt

/-- **The word of a leaf is a value**, once no node is left that no key needs. -/
theorem Holds.words (h : T.Holds c [] M) (hT : T.Sound c) : T.Words := by
  intro l q ht hleaf
  have h0 := hT.zero_notMem ht
  by_cases hl : l = 0
  · subst hl
    have hvalue := h.value q ht.1 h0
    unfold value? at hvalue
    rw [if_pos ht.2] at hvalue
    obtain ⟨v, -, hv⟩ := Option.map_eq_some_iff.mp hvalue.symm
    exact ⟨v, hv.symm⟩
  · have h0' : 0 ∉ l :: q := by
      rw [List.mem_cons, not_or]
      exact ⟨Ne.symm hl, h0⟩
    obtain ⟨v, hv⟩ := h.exists_leafValue ht h0' hleaf (by simp)
    exact ⟨v, (leafValue?_eq_some hv).2.2⟩

end Outline

/-! ### Records -/

/-- An offset fits as a word, in either encoding. -/
theorem Encoding.ofOffset_fits (e : Encoding) {k : Nat} (hk : k < 2147483648) :
    Integer.Fits 4 (e.ofOffset k) := by
  rw [fits_four]
  cases e with
  | standard => exact ⟨by simp only [ofOffset]; omega, by simp only [ofOffset]; omega⟩
  | reduced => exact ⟨by simp only [ofOffset]; omega, by simp only [ofOffset]; omega⟩

/-- The word of a slot that was just taken is a number of 32 bits. -/
theorem Encoding.exists_fresh (e : Encoding) (l : UInt8) : ∃ v : Int32, e.fresh l = v.toInt := by
  cases e with
  | standard =>
    simp only [fresh]
    split_ifs
    · exact ⟨0, rfl⟩
    · exact ⟨-1, rfl⟩
  | reduced => exact ⟨2147483646, rfl⟩

namespace Pool

variable {c : Config} {p : Pool} {T : Outline} {off : Trail → Nat}

/-- **A slot fits**, be it one of a node, a free one, or one that was never used. -/
theorem Lays.slot_fits (h : p.Lays c T off) (hwords : T.Words) (hcap : p.capacity ≤ 2147483648)
    (e : Nat) : (p.slot e).Fits := by
  have hkept := h.draws.kept
  have hsize : p.size ≤ 2147483648 := hkept.size_le.trans hcap
  have hoff : ∀ t, T.Mem t → t = [] ∨ T.kids t ≠ [] → off t < 2147483648 := fun t ht hk =>
    lt_of_lt_of_le (h.off_lt_size ht hk) hsize
  cases hlive : p.live e with
  | some s =>
    obtain ⟨t, ht, rfl⟩ := h.draws.onto e s hlive
    rcases t with _ | ⟨l, q⟩
    · refine ⟨?_, ?_⟩
      · rw [h.base_of_kids ht (.inl rfl)]
        exact c.encoding.ofOffset_fits (hoff _ ht (.inl rfl))
      · rw [h.slot_eq ht]
        exact fits_four.mpr (by decide : -2147483648 ≤ (-1 : Int) ∧ (-1 : Int) ≤ 2147483647)
    · refine ⟨?_, ?_⟩
      · by_cases hk : T.kids (l :: q) = []
        · obtain ⟨v, hv⟩ := hwords l q ht hk
          rw [h.base_of_leaf ht hk, hv, fits_four]
          exact ⟨v.le_toInt, v.toInt_le⟩
        · rw [h.base_of_kids ht (.inr hk)]
          exact c.encoding.ofOffset_fits (hoff _ ht (.inr hk))
      · have hlt := h.draws.lt_size ht.1
        rw [h.check_cons ht, fits_four]
        omega
  | none =>
    rcases live_eq_none_iff.mp hlive with hunused | hfree
    · rw [hkept.unused.slot e hunused]
      exact ⟨fits_four.mpr (by decide), fits_four.mpr (by decide)⟩
    · obtain ⟨l, hl, he⟩ := hkept.freeList_of_free hfree
      have hprev := (hl.free (hl.prevFree_mem he)).2.1
      have hnext := (hl.free (hl.nextFree_mem he)).2.1
      rw [Slot.Fits, (hl.link_prevFree he).2, (hl.link_nextFree he).1, fits_four, fits_four]
      omega

theorem WellKept.head_lt (h : p.WellKept c) (r : Ring) : p.head r < p.blocksInUse :=
  h.rings.head_lt (Nat.div_pos h.size_pos (by decide)) r

/-- **A block fits**, in use or not. -/
theorem WellKept.block_fits (h : p.WellKept c) (hcap : p.capacity ≤ 2147483648)
    (hmax : c.maxTrial ≤ 2147483647) (b : Nat) : (p.block b).Fits := by
  obtain ⟨hnext, hprev⟩ := h.rings.links_lt (Nat.div_pos h.size_pos (by decide)) b
  have hsize := h.size_le
  have huse : p.blocksInUse ≤ 8388608 := by
    unfold blocksInUse blockSize
    omega
  have haccount : (0 ≤ (p.block b).free ∧ (p.block b).free ≤ 256) ∧
      (0 ≤ (p.block b).reject ∧ (p.block b).reject ≤ 257) ∧
      (0 ≤ (p.block b).trials ∧ (p.block b).trials ≤ c.maxTrial) ∧
      0 ≤ (p.block b).head ∧ (p.block b).head ≤ 2147483647 := by
    by_cases hb : b < p.blocksInUse
    · obtain ⟨l, hl⟩ := h.freeLists b hb
      have hfree := hl.free_eq
      have hlength := hl.length_le
      unfold blockSize at hlength
      have hreject := h.reject b hb
      have htrials := h.trials b hb
      have hhead := h.heads b hb
      omega
    · have hmaxTrial := h.maxTrial_pos
      obtain ⟨hfree, hreject, htrials, hhead⟩ :=
        Block.account_eq_iff.mp (h.unused.account b (not_lt.mp hb))
      rw [hfree, hreject, htrials, hhead]
      exact ⟨by decide, by decide, ⟨le_rfl, hmaxTrial.trans' (by decide)⟩, by decide⟩
  constructor <;> simp only [fits_two, fits_four] <;> omega

theorem WellKept.reject_fits (h : p.WellKept c) (h0 : 0 ≤ p.reject 0 ∧ p.reject 0 ≤ 1) (n : Nat) :
    Integer.Fits 2 (p.reject n) := by
  rw [fits_two]
  by_cases hn : n < rejectCount
  · unfold rejectCount at hn
    rcases Nat.eq_zero_or_pos n with rfl | hpos
    · omega
    · have hbound := h.bound n hpos (by unfold blockSize; omega)
      omega
  · have hout : p.reject n = 0 := by
      unfold Pool.reject
      rw [Array.getD_eq_getD_getElem?, Array.getElem?_eq_none (by rw [h.size_rejects]; omega)]
      rfl
    rw [hout]
    decide

theorem Lays.slot_zero (h : p.Lays c T off) :
    (p.slot 0).base = c.encoding.rootBase ∧ (p.slot 0).check = -1 := by
  rw [h.slot_root, Encoding.rootBase_eq]
  exact ⟨congrArg (fun k : Nat => c.encoding.ofOffset k) h.root, rfl⟩

end Pool

/-! ### Tries -/

/-- Where the records live does not matter. -/
theorem Trie.Encodable.congr {t u : Trie} (h : u.Encodable) (ht : t.Alike u) : t.Encodable := by
  obtain ⟨c, p⟩ := t
  obtain ⟨c', q⟩ := u
  obtain ⟨rfl, hpool⟩ := ht
  have hcopy : Encodable ⟨c, p.copy⟩ := by
    rw [hpool]
    exact ⟨h.1, h.2, h.3, h.4, h.5, h.6, h.7, h.8, h.9, h.10, h.11, h.12, h.13, h.14, h.15⟩
  exact ⟨hcopy.1, hcopy.2, hcopy.3, hcopy.4, hcopy.5, hcopy.6, hcopy.7, hcopy.8, hcopy.9, hcopy.10,
    hcopy.11, hcopy.12, hcopy.13, hcopy.14, hcopy.15⟩

/-- **The numbers of a trie fit into its image** as long as its capacity and its number of trials do. -/
theorem Trie.Holds.encodable {t : Trie} {M : Entries} (h : t.Holds M)
    (hreject : 0 ≤ t.pool.reject 0 ∧ t.pool.reject 0 ≤ 1)
    (hcap : t.pool.capacity ≤ 2147483648) (hmax : t.config.maxTrial ≤ 2147483647) :
    t.Encodable := by
  obtain ⟨T, off, hlays, hholds⟩ := h
  have hkept := hlays.draws.kept
  exact {
    valid := hkept.valid
    maxTrial_le := hmax
    capacity_dvd := hkept.capacity_dvd
    capacity_le := hcap
    size_pos := hkept.size_pos
    size_dvd := hkept.size_dvd
    size_le := hkept.size_le
    heads := hkept.head_lt
    size_blocks := hkept.size_blocks
    size_rejects := hkept.size_rejects
    root_base := hlays.slot_zero.1
    root_check := hlays.slot_zero.2
    slots := hlays.slot_fits (hholds.words hlays.sound) hcap
    blocks := hkept.block_fits hcap hmax
    rejects := hkept.reject_fits hreject }

end DoubleArrayTrie
