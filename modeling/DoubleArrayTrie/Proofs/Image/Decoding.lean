import Mathlib.Data.List.Flatten
import DoubleArrayTrie.Image.Basic

/-!
# Images are read back

An image is put together from integers and bytes, and read by their offsets. What was written at an
offset is read there, as long as each integer fits into its bytes.

* `Image.Stands`: the bytes from an offset on begin with a list.
* `Slot.ofBytes_eq`, `Block.ofBytes_eq`: a record is read back.
* `Header.decode_eq`: so is a header.
-/

namespace DoubleArrayTrie

/-! ### Integers that fit -/

namespace Integer

/-- The integer fits into so many bytes. -/
def Fits (n : Nat) (i : Int) : Prop := -(modulus n : Int) ≤ 2 * i ∧ 2 * i < modulus n

theorem fits_two {i : Int} : Fits 2 i ↔ -32768 ≤ i ∧ i ≤ 32767 := by
  unfold Fits
  rw [show modulus 2 = 65536 from rfl]
  omega

theorem fits_four {i : Int} : Fits 4 i ↔ -2147483648 ≤ i ∧ i ≤ 2147483647 := by
  unfold Fits
  rw [show modulus 4 = 4294967296 from rfl]
  omega

theorem fits_eight {i : Int} :
    Fits 8 i ↔ -9223372036854775808 ≤ i ∧ i ≤ 9223372036854775807 := by
  unfold Fits
  rw [show modulus 8 = 18446744073709551616 from rfl]
  omega

end Integer

open Integer

/-- The words of the slot fit. -/
def Slot.Fits (s : Slot) : Prop := Integer.Fits 4 s.base ∧ Integer.Fits 4 s.check

/-- The numbers of the block fit. -/
structure Block.Fits (b : Block) : Prop where
  prev : Integer.Fits 4 b.prev
  next : Integer.Fits 4 b.next
  free : Integer.Fits 2 b.free
  reject : Integer.Fits 2 b.reject
  trials : Integer.Fits 4 b.trials
  head : Integer.Fits 4 b.head

/-- The numbers of the header fit. -/
def Header.Fits (h : Header) : Prop :=
  (∀ i ∈ h.narrow, Integer.Fits 4 i) ∧ ∀ i ∈ h.wide, Integer.Fits 8 i

/-! ### What stands where -/

namespace Image

/-- The bytes from an offset on begin with the list. -/
def Stands (bytes : Array UInt8) (offset : Nat) (l : List UInt8) : Prop :=
  l <+: bytes.toList.drop offset

/-- Items of the same length, one after the other. -/
theorem length_flatMap_of_fixed {α : Type} {w : Nat} {f : α → List UInt8}
    (hf : ∀ a, (f a).length = w) (items : List α) :
    (items.flatMap f).length = items.length * w := by
  induction items with
  | nil => exact (Nat.zero_mul w).symm
  | cons a items ih =>
      rw [List.flatMap_cons, List.length_append, hf, ih, List.length_cons, Nat.succ_mul, Nat.add_comm]

/-- Bytes between others are overwritten. -/
theorem overwrite_middle {before old new : List UInt8} {n : Nat} (hbefore : before.length = n)
    (hlength : old.length = new.length) (after : List UInt8) :
    overwrite n new (before ++ (old ++ after)) = before ++ (new ++ after) := by
  unfold overwrite
  rw [← List.append_assoc before old,
    List.drop_left' (by rw [List.length_append, hbefore, hlength]), List.append_assoc before old,
    List.take_left' hbefore, List.append_assoc]

namespace Stands

variable {bytes : Array UInt8} {k n w : Nat} {l m : List UInt8}

theorem left (h : Stands bytes k (l ++ m)) : Stands bytes k l := (List.prefix_append l m).trans h

theorem right (h : Stands bytes k (l ++ m)) : Stands bytes (k + l.length) m := by
  obtain ⟨rest, hrest⟩ := h
  refine ⟨rest, ?_⟩
  rw [← List.drop_drop, ← hrest, List.append_assoc, List.drop_left]

/-- An integer is read where it stands. -/
theorem integerAt {i : Int} (h : Stands bytes k (encode n i)) (hi : Integer.Fits n i) :
    Header.integerAt bytes k n = i := by
  obtain ⟨rest, hrest⟩ := h
  unfold Header.integerAt
  rw [Array.toList_extract, List.extract_eq_take_drop, ← hrest, Nat.add_sub_cancel_left,
    List.take_left' (length_encode n i), decode_encode hi.1 hi.2]

/-- A byte is read where it stands. -/
theorem byte {x : UInt8} (h : Stands bytes k (x :: l)) : bytes.getD k 0 = x := by
  obtain ⟨rest, hrest⟩ := h
  have hget : bytes.toList[k]? = some x := by
    rw [← List.head?_drop, ← hrest]
    rfl
  rw [Array.getD_eq_getD_getElem?, ← Array.getElem?_toList, hget]
  rfl

/-- Of items of the same length, one after the other, each stands at its place. -/
theorem flatMap {α : Type} {items : List α} {f : α → List UInt8} (hf : ∀ a, (f a).length = w)
    (h : Stands bytes k (items.flatMap f)) {i : Nat} (hi : i < items.length) :
    Stands bytes (k + i * w) (f items[i]) := by
  have hsplit : items.flatMap f = (items.take i).flatMap f ++
      (f items[i] ++ (items.drop (i + 1)).flatMap f) := by
    rw [← List.flatMap_cons, ← List.flatMap_append, ← List.drop_eq_getElem_cons hi,
      List.take_append_drop]
  have hlength : ((items.take i).flatMap f).length = i * w := by
    rw [length_flatMap_of_fixed hf, List.length_take, Nat.min_eq_left (Nat.le_of_lt hi)]
  rw [hsplit] at h
  have hright := h.right
  rw [hlength] at hright
  exact hright.left

end Stands

end Image

open Image

/-! ### Records -/

section Slot

variable {bytes : Array UInt8} {node link : Nat} {s : Slot}

theorem Slot.base_ofBytes (hnode : Stands bytes node (encode 4 s.base ++ encode 4 s.check))
    (hs : s.Fits) : (Slot.ofBytes bytes node link).base = s.base := hnode.left.integerAt hs.1

theorem Slot.check_ofBytes (hnode : Stands bytes node (encode 4 s.base ++ encode 4 s.check))
    (hs : s.Fits) : (Slot.ofBytes bytes node link).check = s.check := by
  have hcheck := hnode.right
  rw [length_encode] at hcheck
  exact hcheck.integerAt hs.2

theorem Slot.ofBytes_eq (hnode : Stands bytes node (encode 4 s.base ++ encode 4 s.check))
    (hlink : Stands bytes link [s.sibling, s.child]) (hs : s.Fits) :
    Slot.ofBytes bytes node link = s := by
  have hchild : Stands bytes (link + 1) [s.child] := Stands.right (l := [s.sibling]) hlink
  exact Slot.ext (base_ofBytes hnode hs) (check_ofBytes hnode hs) hlink.byte hchild.byte

end Slot

theorem Block.ofBytes_eq {bytes : Array UInt8} {k : Nat} {b : Block}
    (h : Stands bytes k (encode 4 b.prev ++ encode 4 b.next ++ encode 2 b.free ++
      encode 2 b.reject ++ encode 4 b.trials ++ encode 4 b.head)) (hb : b.Fits) :
    Block.ofBytes bytes k = b := by
  have hhead := h.right
  have htrials := h.left.right
  have hreject := h.left.left.right
  have hfree := h.left.left.left.right
  have hnext := h.left.left.left.left.right
  simp only [List.length_append, length_encode] at hhead htrials hreject hfree hnext
  unfold Block.ofBytes
  rw [h.left.left.left.left.left.integerAt hb.prev, hnext.integerAt hb.next,
    hfree.integerAt hb.free, hreject.integerAt hb.reject, htrials.integerAt hb.trials,
    hhead.integerAt hb.head]

/-! ### The header -/

namespace Header

@[simp] theorem length_encode (h : Header) : h.encode.length = byteSize := by
  simp [encode, narrow, wide, byteSize]

/-- **A header is read back.** -/
theorem decode_eq {bytes : Array UInt8} {h : Header} (hstands : Stands bytes 0 h.encode)
    (hfits : h.Fits) : decode bytes = h := by
  have hwide := hstands.right
  have hlength : (h.narrow.flatMap (Integer.encode 4)).length = 20 := by simp [narrow]
  rw [hlength] at hwide
  have hnarrowAt : ∀ i (hi : i < h.narrow.length), integerAt bytes (4 * i) 4 = h.narrow[i] := by
    intro i hi
    have hi' := hstands.left.flatMap (Integer.length_encode 4) hi
    rw [Nat.zero_add, Nat.mul_comm] at hi'
    exact hi'.integerAt (hfits.1 _ (List.getElem_mem hi))
  have hwideAt : ∀ i (hi : i < h.wide.length), integerAt bytes (20 + 8 * i) 8 = h.wide[i] := by
    intro i hi
    have hi' := hwide.flatMap (Integer.length_encode 8) hi
    rw [Nat.zero_add, Nat.mul_comm] at hi'
    exact hi'.integerAt (hfits.2 _ (List.getElem_mem hi))
  unfold decode
  dsimp only
  have hnarrow : h.narrow.length = 5 := rfl
  have hwidth : h.wide.length = 10 := rfl
  rw [hnarrowAt 0 (by omega), hnarrowAt 1 (by omega), hnarrowAt 2 (by omega),
    hnarrowAt 3 (by omega), hnarrowAt 4 (by omega), hwideAt 0 (by omega), hwideAt 1 (by omega),
    hwideAt 2 (by omega), hwideAt 3 (by omega), hwideAt 4 (by omega), hwideAt 5 (by omega),
    hwideAt 6 (by omega), hwideAt 7 (by omega), hwideAt 8 (by omega), hwideAt 9 (by omega)]
  rfl

end Header

end DoubleArrayTrie
