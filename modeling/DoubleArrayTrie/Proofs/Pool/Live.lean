import Mathlib.Logic.Function.Basic
import DoubleArrayTrie.Pool.FreeList
import DoubleArrayTrie.Proofs.Pool.Rings

/-!
# Slots in use and free slots

A slot of a block in use is free if its `check` is negative, where slot `0`, the root, counts as
used. What a pool holds for the trie is its function `live`, from slots in use to their records: the
trie is read off `live` alone, and free slots and what is kept about blocks are the business of the
allocator.

* `slot_modifySlot_of_lt`: a write to a slot as an update of the function `slot`.
* `live_modifySlot`: a write to a slot in use as an update of the function `live`.
-/

namespace DoubleArrayTrie

namespace Pool

variable {p q : Pool} {e i j : Nat}

/-- The record of a slot in use. -/
def live (p : Pool) (e : Nat) : Option Slot :=
  if e < p.size ∧ (e = 0 ∨ 0 ≤ (p.slot e).check) then some (p.slot e) else none

/-- Slot `e` belongs to a block in use, and to no node. -/
def Free (p : Pool) (e : Nat) : Prop := 0 < e ∧ e < p.size ∧ (p.slot e).check < 0

theorem live_eq_some_iff {s : Slot} : p.live e = some s ↔
    e < p.size ∧ (e = 0 ∨ 0 ≤ (p.slot e).check) ∧ p.slot e = s := by
  unfold live
  split_ifs with h
  · simp [h]
  · simp only [false_iff]
    tauto

theorem live_eq_none_iff : p.live e = none ↔ p.size ≤ e ∨ p.Free e := by
  unfold live Free
  split_ifs with h <;> simp only [false_iff, true_iff] <;> omega

theorem slot_eq_of_live {s : Slot} (h : p.live e = some s) : p.slot e = s :=
  (live_eq_some_iff.mp h).2.2

theorem lt_size_of_live {s : Slot} (h : p.live e = some s) : e < p.size :=
  (live_eq_some_iff.mp h).1

theorem free_iff_live : p.Free e ↔ e < p.size ∧ p.live e = none := by
  rw [live_eq_none_iff]
  unfold Free
  omega

theorem not_free_of_live {s : Slot} (h : p.live e = some s) : ¬ p.Free e := fun hfree => by
  rw [(free_iff_live.mp hfree).2] at h
  simp at h

/-- What is live depends on the slots and on how many are in use. -/
theorem live_congr (hsize : q.size = p.size) (hslot : q.slot = p.slot) : q.live = p.live := by
  funext e
  unfold live
  rw [hsize, hslot]

theorem slot_congr (h : q.slots = p.slots) : q.slot = p.slot := by
  funext e
  unfold slot
  rw [h]

theorem block_congr (h : q.blocks = p.blocks) : q.block = p.block := by
  funext e
  unfold block
  rw [h]

/-! ### Writes -/

theorem slot_modifySlot_of_lt (hi : i < p.capacity) (f : Slot → Slot) :
    (p.modifySlot i f).slot = Function.update p.slot i (f (p.slot i)) := by
  funext j
  rw [slot_modifySlot, Function.update_apply]
  by_cases hj : j = i
  · subst hj; simp [hi]
  · simp [hj, Ne.symm hj]

/-- A write that puts a slot into use. -/
theorem live_modifySlot_of_lt (hcap : p.size ≤ p.capacity) (hlt : i < p.size) (f : Slot → Slot)
    (hf : i = 0 ∨ 0 ≤ (f (p.slot i)).check) :
    (p.modifySlot i f).live = Function.update p.live i (some (f (p.slot i))) := by
  funext j
  rw [Function.update_apply]
  by_cases hj : j = i
  · subst hj
    rw [if_pos rfl, live_eq_some_iff, slot_modifySlot_of_lt (by omega), Function.update_self]
    exact ⟨hlt, hf, rfl⟩
  · rw [if_neg hj]
    unfold live
    rw [slot_modifySlot_of_lt (by omega), Function.update_of_ne hj, size_modifySlot]

/-- A write that puts a slot out of use. -/
theorem live_modifySlot_of_neg (hi : i < p.capacity) (h0 : i ≠ 0) (f : Slot → Slot)
    (hf : (f (p.slot i)).check < 0) : (p.modifySlot i f).live = Function.update p.live i none := by
  funext j
  rw [Function.update_apply]
  by_cases hj : j = i
  · subst hj
    rw [if_pos rfl, live, slot_modifySlot_of_lt hi, Function.update_self, if_neg (by omega)]
  · rw [if_neg hj]
    unfold live
    rw [slot_modifySlot_of_lt hi, Function.update_of_ne hj, size_modifySlot]

/-- A write to a slot in use that leaves it in use. -/
theorem live_modifySlot {s : Slot} (hcap : p.size ≤ p.capacity) (h : p.live i = some s)
    (f : Slot → Slot) (hf : i = 0 ∨ 0 ≤ (f s).check) :
    (p.modifySlot i f).live = Function.update p.live i (some (f s)) := by
  obtain ⟨hlt, -, rfl⟩ := live_eq_some_iff.mp h
  exact live_modifySlot_of_lt hcap hlt f hf

/-! ### Blocks of slots -/

theorem blockOf_lt_iff {n : Nat} (h : blockSize ∣ n) : blockOf e < n / blockSize ↔ e < n := by
  unfold blockOf blockSize at *
  omega

theorem blockSize_le_iff : blockSize ≤ e ↔ 0 < blockOf e := by
  unfold blockOf blockSize
  omega

theorem xor_label_cancel (e : Nat) (l : UInt8) : (e ^^^ l.toNat) ^^^ l.toNat = e := by
  rw [Nat.xor_assoc, Nat.xor_self, Nat.xor_zero]

/-- At one offset different labels have different slots. -/
theorem xor_label_inj {l m : UInt8} : e ^^^ l.toNat = e ^^^ m.toNat ↔ l = m := by
  constructor
  · intro h
    have hlm := congrArg (e ^^^ ·) h
    simp only [← Nat.xor_assoc, Nat.xor_self, Nat.zero_xor] at hlm
    exact UInt8.toNat_inj.mp hlm
  · rintro rfl
    rfl

/-- Slots that differ by a label are in one block. -/
theorem blockOf_xor (e : Nat) (l : UInt8) : blockOf (e ^^^ l.toNat) = blockOf e := by
  unfold blockOf blockSize
  have hl : l.toNat < 2 ^ 8 := l.toNat_lt
  rw [show (256 : Nat) = 2 ^ 8 from rfl, ← Nat.shiftRight_eq_div_pow, ← Nat.shiftRight_eq_div_pow,
    Nat.shiftRight_xor_distrib, Nat.shiftRight_eq_div_pow l.toNat, Nat.div_eq_of_lt hl, Nat.xor_zero]

end Pool

end DoubleArrayTrie
