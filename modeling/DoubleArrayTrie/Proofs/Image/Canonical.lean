import Mathlib.Data.List.Basic
import Mathlib.Tactic.Set
import DoubleArrayTrie.Proofs.Image.RoundTrip

/-!
# What was read is written back

Reading loses nothing: the integers of a header and of a record are written back as the bytes that
they were read from. So the header and the parts of a pool that was read from an image are the bytes
of that image.

* `Integer.encode_decode`: an integer is written back.
* `Header.encode_decode`: so is a header.
* `Pool.partsBytes_ofBytes`: so are the four parts.
-/

namespace DoubleArrayTrie

/-! ### Integers -/

namespace Integer

theorem decodeNat_lt (bytes : List UInt8) : decodeNat bytes < modulus bytes.length := by
  induction bytes with
  | nil => exact Nat.one_pos
  | cons b bytes ih =>
    have hb := b.toNat_lt
    simp only [decodeNat, List.length_cons, modulus]
    omega

/-- Bytes of the same number are told apart by the number that they make. -/
theorem decodeNat_injective {l m : List UInt8} (hlength : l.length = m.length)
    (h : decodeNat l = decodeNat m) : l = m := by
  induction l generalizing m with
  | nil => exact (List.length_eq_zero_iff.mp hlength.symm).symm
  | cons a l ih =>
    cases m with
    | nil => cases hlength
    | cons b m =>
      have ha := a.toNat_lt
      have hb := b.toNat_lt
      simp only [decodeNat] at h
      rw [UInt8.toNat_inj.mp (by omega : a.toNat = b.toNat),
        ih (Nat.succ.inj hlength) (by omega)]

/-- **An integer is written back** as the bytes that it was read from. -/
theorem encode_decode (bytes : List UInt8) : encode bytes.length (decode bytes) = bytes := by
  refine decodeNat_injective (length_encode ..) ?_
  have hlt := decodeNat_lt bytes
  have hnumber := decodeNat_encode bytes.length (decode bytes)
  rw [decode, Int.bmod_emod, Int.emod_eq_of_lt (by omega) (by omega)] at hnumber
  exact Int.ofNat.inj hnumber

/-- What is read from so many bytes fits into them. -/
theorem fits_decode (bytes : List UInt8) : Fits bytes.length (decode bytes) := by
  have hpos := modulus_pos bytes.length
  have hlo := Int.le_bmod (x := decodeNat bytes) hpos
  have hhi := Int.bmod_lt (x := decodeNat bytes) hpos
  unfold Fits decode
  omega

end Integer

open Integer

/-! ### Pieces -/

namespace Image

variable {bytes : Array UInt8} {k n w : Nat}

/-- So many bytes from an offset on. -/
def slice (bytes : Array UInt8) (offset length : Nat) : List UInt8 :=
  (bytes.toList.drop offset).take length

theorem length_slice (h : k + n ≤ bytes.size) : (slice bytes k n).length = n := by
  rw [slice, List.length_take, List.length_drop, Array.length_toList]
  omega

/-- Two pieces without a gap are one. -/
theorem slice_append (bytes : Array UInt8) (k m n : Nat) :
    slice bytes k m ++ slice bytes (k + m) n = slice bytes k (m + n) := by
  unfold slice
  rw [List.take_add, List.drop_drop]

/-- So are several of the same length. -/
theorem flatMap_slice (bytes : Array UInt8) (k w n : Nat) :
    ((List.range n).flatMap fun i => slice bytes (k + i * w) w) = slice bytes k (n * w) := by
  induction n with
  | zero => rw [Nat.zero_mul, slice, List.take_zero]; rfl
  | succ n ih =>
    rw [List.range_succ, List.flatMap_append, ih, List.flatMap_singleton, slice_append,
      Nat.succ_mul]

/-- Records that are written back one by one are written back together. -/
theorem flatMap_ofFn {α : Type} {f : Nat → α} {g : α → List UInt8}
    (hg : ∀ i < n, g (f i) = slice bytes (k + i * w) w) :
    (Array.ofFn fun i : Fin n => f i).toList.flatMap g = slice bytes k (n * w) := by
  have hrange : (List.ofFn fun i : Fin n => f i) = (List.range n).map f := by
    refine List.ext_getElem (by simp) fun i _ _ => ?_
    rw [List.getElem_ofFn, List.getElem_map, List.getElem_range]
  rw [Array.toList_ofFn, hrange, List.flatMap_map, ← flatMap_slice]
  exact List.flatMap_congr fun i hi => hg i (List.mem_range.mp hi)

theorem integerAt_eq (bytes : Array UInt8) (k n : Nat) :
    Header.integerAt bytes k n = decode (slice bytes k n) := by
  rw [Header.integerAt, Array.toList_extract, List.extract_eq_take_drop, Nat.add_sub_cancel_left]
  rfl

theorem encode_integerAt (h : k + n ≤ bytes.size) :
    encode n (Header.integerAt bytes k n) = slice bytes k n := by
  have hencode := encode_decode (slice bytes k n)
  rwa [length_slice h, ← integerAt_eq] at hencode

theorem fits_integerAt (h : k + n ≤ bytes.size) :
    Integer.Fits n (Header.integerAt bytes k n) := by
  have hfits := fits_decode (slice bytes k n)
  rwa [length_slice h, ← integerAt_eq] at hfits

theorem getD_eq_slice (h : k < bytes.size) : [bytes.getD k 0] = slice bytes k 1 := by
  rw [slice, List.drop_eq_getElem_cons (by rwa [Array.length_toList]), List.take_succ_cons,
    List.take_zero, Array.getElem_toList, Array.getElem_eq_getD]

end Image

open Image

/-! ### Records -/

section Record

variable {bytes : Array UInt8} {k node link : Nat}

theorem Slot.encode_ofBytes (h : node + 8 ≤ bytes.size) :
    encode 4 (Slot.ofBytes bytes node link).base ++ encode 4 (Slot.ofBytes bytes node link).check =
      slice bytes node 8 := by
  simp only [Slot.ofBytes]
  rw [encode_integerAt (by omega), encode_integerAt (by omega), slice_append]

theorem Slot.labels_ofBytes (h : link + 2 ≤ bytes.size) :
    [(Slot.ofBytes bytes node link).sibling, (Slot.ofBytes bytes node link).child] =
      slice bytes link 2 := by
  rw [← slice_append bytes link 1 1, ← getD_eq_slice (by omega), ← getD_eq_slice (by omega)]
  rfl

theorem Block.encode_ofBytes (h : k + 20 ≤ bytes.size) :
    encode 4 (Block.ofBytes bytes k).prev ++ encode 4 (Block.ofBytes bytes k).next ++
      encode 2 (Block.ofBytes bytes k).free ++ encode 2 (Block.ofBytes bytes k).reject ++
      encode 4 (Block.ofBytes bytes k).trials ++ encode 4 (Block.ofBytes bytes k).head =
      slice bytes k 20 := by
  simp only [Block.ofBytes]
  rw [encode_integerAt (by omega), encode_integerAt (by omega), encode_integerAt (by omega),
    encode_integerAt (by omega), encode_integerAt (by omega), encode_integerAt (by omega)]
  simp only [slice_append, Nat.reduceAdd]

end Record

/-! ### Headers and parts -/

/-- **A header is written back** as the bytes that it was read from. -/
theorem Header.encode_decode {bytes : Array UInt8} (h : byteSize ≤ bytes.size) :
    (decode bytes).encode = slice bytes 0 byteSize := by
  unfold byteSize at h
  have hnarrow : (decode bytes).narrow = (List.range 5).map fun i => integerAt bytes (0 + i * 4) 4 :=
    rfl
  have hwide : (decode bytes).wide = (List.range 10).map fun i => integerAt bytes (20 + i * 8) 8 :=
    rfl
  have hnarrowBytes : (decode bytes).narrow.flatMap (Integer.encode 4) = slice bytes 0 (5 * 4) := by
    rw [hnarrow, List.flatMap_map, ← flatMap_slice]
    refine List.flatMap_congr fun i hi => encode_integerAt ?_
    have := List.mem_range.mp hi
    omega
  have hwideBytes : (decode bytes).wide.flatMap (Integer.encode 8) = slice bytes 20 (10 * 8) := by
    rw [hwide, List.flatMap_map, ← flatMap_slice]
    refine List.flatMap_congr fun i hi => encode_integerAt ?_
    have := List.mem_range.mp hi
    omega
  rw [encode, hnarrowBytes, hwideBytes]
  exact slice_append bytes 0 20 80

section ofBytes

variable (h : Header) (backing : Backing) (bytes : Array UInt8)

theorem Pool.size_slots_ofBytes : (ofBytes h backing bytes).slots.size = h.capacity.toNat :=
  Array.size_ofFn

theorem Pool.size_blocks_ofBytes :
    (ofBytes h backing bytes).blocks.size = h.capacity.toNat / blockSize := Array.size_ofFn

theorem Pool.size_rejects_ofBytes : (ofBytes h backing bytes).rejects.size = rejectCount := by
  simp only [ofBytes, Array.size_ofFn]

end ofBytes

/-- The number of bytes of the parts of an image with so many slots. -/
def Image.partsLength (capacity : Nat) : Nat :=
  capacity * Part.nodes.recordSize + capacity * Part.links.recordSize +
    capacity / blockSize * Part.blocks.recordSize + rejectCount * Part.rejects.recordSize

/-- **The parts are written back** as the bytes that they were read from. -/
theorem Pool.partsBytes_ofBytes {h : Header} {bytes : Array UInt8} (backing : Backing)
    (hlong : Header.byteSize + partsLength h.capacity.toNat ≤ bytes.size) :
    partsBytes (ofBytes h backing bytes).slots (ofBytes h backing bytes).blocks
        (ofBytes h backing bytes).rejects =
      slice bytes Header.byteSize (partsLength h.capacity.toNat) := by
  set n := h.capacity.toNat with hn
  set m := n / blockSize with hm
  unfold partsLength at hlong
  rw [← hm] at hlong
  simp only [Part.recordSize] at hlong
  let slotAt : Nat → Slot := fun i =>
    .ofBytes bytes (Header.byteSize + i * 8) (Header.byteSize + n * 8 + i * 2)
  have hnodes : nodeBytes (ofBytes h backing bytes).slots = slice bytes Header.byteSize (n * 8) :=
    flatMap_ofFn (f := slotAt) fun i hi => Slot.encode_ofBytes (by omega)
  have hlinks : linkBytes (ofBytes h backing bytes).slots =
      slice bytes (Header.byteSize + n * 8) (n * 2) :=
    flatMap_ofFn (f := slotAt) fun i hi => Slot.labels_ofBytes (by omega)
  have hblocks : blockBytes (ofBytes h backing bytes).blocks =
      slice bytes (Header.byteSize + n * 8 + n * 2) (m * 20) :=
    flatMap_ofFn (f := fun i => Block.ofBytes bytes (Header.byteSize + n * 8 + n * 2 + i * 20))
      fun i (hi : i < m) => Block.encode_ofBytes (by omega)
  have hrejects : rejectBytes (ofBytes h backing bytes).rejects =
      slice bytes (Header.byteSize + n * 8 + n * 2 + m * 20) (rejectCount * 2) :=
    flatMap_ofFn (f := fun i => Header.integerAt bytes
      (Header.byteSize + n * 8 + n * 2 + m * 20 + i * 2) 2) fun i hi => encode_integerAt (by omega)
  rw [partsBytes, hnodes, hlinks, hblocks, hrejects, slice_append, Nat.add_assoc Header.byteSize,
    slice_append, Nat.add_assoc Header.byteSize, slice_append]
  rfl

end DoubleArrayTrie
