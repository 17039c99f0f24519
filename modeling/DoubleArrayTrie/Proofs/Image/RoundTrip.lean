import Mathlib.Tactic.SplitIfs
import DoubleArrayTrie.Pool.Ring
import DoubleArrayTrie.Proofs.Image.Decoding

/-!
# Tries are read back

The header of a trie in order breaks no rule, and its numbers fit. So its image is accepted, and what
is read from it is the trie.

* `Trie.Encodable`: the trie fits into an image.
* `Trie.ofImage?_image`: such a trie is read back, whatever follows its image.
-/

namespace DoubleArrayTrie

open Integer Image

/-! ### Lengths -/

namespace Image

theorem length_nodeBytes (slots : Array Slot) :
    (nodeBytes slots).length = slots.size * Part.nodes.recordSize :=
  length_flatMap_of_fixed (fun s => by simp [Part.recordSize]) slots.toList

theorem length_linkBytes (slots : Array Slot) :
    (linkBytes slots).length = slots.size * Part.links.recordSize :=
  length_flatMap_of_fixed (fun s => by simp [Part.recordSize]) slots.toList

theorem length_blockBytes (blocks : Array Block) :
    (blockBytes blocks).length = blocks.size * Part.blocks.recordSize :=
  length_flatMap_of_fixed (fun b => by simp [Part.recordSize]) blocks.toList

theorem length_rejectBytes (rejects : Array Int) :
    (rejectBytes rejects).length = rejects.size * Part.rejects.recordSize :=
  length_flatMap_of_fixed (length_encode 2) rejects.toList

theorem ofFn_eq {α : Type} {a : Array α} {n : Nat} (hn : n = a.size) {f : Nat → α}
    (hf : ∀ i (hi : i < a.size), f i = a[i]) : (Array.ofFn fun i : Fin n => f i) = a := by
  subst hn
  refine Array.ext (Array.size_ofFn ..) fun i _ hi => ?_
  rw [Array.getElem_ofFn]
  exact hf i hi

end Image

theorem Trie.length_image (t : Trie) : t.image.length = t.imageSize := by
  simp only [Trie.image, partsBytes, List.length_append, Header.length_encode, length_nodeBytes,
    length_linkBytes, length_blockBytes, length_rejectBytes]
  rfl

/-- **The numbers of the trie fit into its image**, and those that its header holds break no rule. -/
structure Trie.Encodable (t : Trie) : Prop where
  valid : t.config.fault? = none
  maxTrial_le : t.config.maxTrial ≤ 2147483647
  capacity_dvd : blockSize ∣ t.pool.capacity
  capacity_le : t.pool.capacity ≤ 2147483648
  size_pos : blockSize ≤ t.pool.size
  size_dvd : blockSize ∣ t.pool.size
  size_le : t.pool.size ≤ t.pool.capacity
  heads : ∀ r, t.pool.head r < t.pool.blocksInUse
  size_blocks : t.pool.blocks.size = t.pool.capacity / blockSize
  size_rejects : t.pool.rejects.size = rejectCount
  root_base : (t.pool.slot 0).base = t.config.encoding.rootBase
  root_check : (t.pool.slot 0).check = -1
  slots : ∀ e, (t.pool.slot e).Fits
  blocks : ∀ b, (t.pool.block b).Fits
  rejects : ∀ n, Integer.Fits 2 (t.pool.reject n)

namespace Trie.Encodable

variable {t : Trie}

/-! ### The header -/

theorem maxTrial_pos (h : t.Encodable) : 1 ≤ t.config.maxTrial := by
  have hvalid := h.valid
  unfold Options.fault? at hvalid
  split_ifs at hvalid with hlt
  omega

/-- The flags word of valid options fits. -/
theorem flags_fits (h : t.Encodable) : Integer.Fits 4 t.config.flags := by
  have hcode : t.config.growth.code ≤ Growth.maxBlocks := by
    have hvalid := h.valid
    unfold Options.fault? at hvalid
    rw [if_neg (by have := h.maxTrial_pos; omega)] at hvalid
    cases hg : t.config.growth with
    | doubling => exact Nat.zero_le _
    | linear blocks =>
      rw [hg] at hvalid
      dsimp only at hvalid
      split_ifs at hvalid with h0 hmax
      exact Nat.le_of_not_lt hmax
  rw [fits_four]
  unfold Growth.maxBlocks at hcode
  unfold Options.flags
  split_ifs <;> omega

theorem header_fits (h : t.Encodable) : (Header.ofTrie t).Fits := by
  have hcapacity := h.capacity_le
  have hsize := h.size_le
  have hblocks := h.size_blocks
  have hrejects := h.size_rejects
  have hheads : ∀ r, Integer.Fits 4 (t.pool.head r) := by
    intro r
    have hlt := h.heads r
    unfold Pool.blocksInUse blockSize at hlt
    rw [fits_four]
    omega
  have hmaxTrial : Integer.Fits 4 t.config.maxTrial := by
    have := h.maxTrial_pos
    rw [fits_four]
    exact ⟨by omega, h.maxTrial_le⟩
  unfold Pool.capacity at hcapacity hsize hblocks
  unfold blockSize at hblocks
  unfold rejectCount at hrejects
  refine ⟨?_, ?_⟩
  · simp only [Header.narrow, Header.ofTrie, List.forall_mem_cons]
    exact ⟨h.flags_fits, hheads .full, hheads .closed, hheads .opened, hmaxTrial, by simp⟩
  · simp only [Header.wide, Header.ofTrie, Header.extent, Pool.byteSize, Pool.recordCount,
      Part.recordSize, Pool.capacity, List.forall_mem_cons, fits_eight]
    refine ⟨?_, ?_, ?_, ?_, ?_, ?_, ?_, ?_, ?_, ?_, by simp⟩ <;> omega

/-- The parts have the sizes that they must have. -/
theorem partRules_eq (h : t.Encodable) (part : Part) :
    ∀ rule ∈ (Header.ofTrie t).partRules part (Header.extent t.pool part), rule.2 = true := by
  have hcount : (t.pool.recordCount part : Int) = (Header.ofTrie t).requiredCount part := by
    have hblocks := h.size_blocks
    have hrejects := h.size_rejects
    unfold Pool.recordCount Header.requiredCount
    cases part with
    | nodes => rfl
    | links => rfl
    | blocks =>
      show (t.pool.blocks.size : Int) = (t.pool.capacity : Int) / (blockSize : Nat)
      rw [hblocks, Int.natCast_ediv]
    | rejects =>
      show (t.pool.rejects.size : Int) = (rejectCount : Nat)
      rw [hrejects]
  simp only [Header.partRules, Header.extent, Header.requiredLength, Pool.byteSize,
    List.forall_mem_cons, beq_iff_eq, Int.natCast_mul, hcount, true_and]
  simp

/-- The header breaks no rule for an image that is long enough. -/
theorem corruption?_eq (h : t.Encodable) {total : Nat} (htotal : t.imageSize ≤ total) :
    (Header.ofTrie t).corruption? total = none := by
  have hheads : ∀ r : Ring, 0 ≤ (t.pool.head r : Int) ∧
      (t.pool.head r : Int) < (t.pool.size : Int) / (blockSize : Nat) := by
    intro r
    have hlt := h.heads r
    unfold Pool.blocksInUse at hlt
    omega
  have hcapacity : (blockSize : Int) ≤ (t.pool.capacity : Int) ∧
      (t.pool.capacity : Int) % (blockSize : Nat) = 0 ∧ (t.pool.capacity : Int) ≤ 2147483648 := by
    have hpos := h.size_pos
    have hle := h.size_le
    have hdvd := h.capacity_dvd
    have hcap := h.capacity_le
    unfold blockSize at *
    omega
  have hsize : (blockSize : Int) ≤ (t.pool.size : Int) ∧
      (t.pool.size : Int) % (blockSize : Nat) = 0 ∧ (t.pool.size : Int) ≤ t.pool.capacity := by
    have hpos := h.size_pos
    have hle := h.size_le
    have hdvd := h.size_dvd
    unfold blockSize at *
    omega
  have hrules : ∀ rule ∈ (Header.ofTrie t).rules total, rule.2 = true := by
    simp only [Header.rules, List.forall_mem_append, List.forall_mem_cons]
    refine ⟨⟨⟨⟨⟨⟨decide_eq_true hcapacity, decide_eq_true hsize, decide_eq_true (hheads .full),
      decide_eq_true (hheads .closed), decide_eq_true (hheads .opened), by simp⟩,
      h.partRules_eq .nodes⟩, h.partRules_eq .links⟩, h.partRules_eq .blocks⟩,
      h.partRules_eq .rejects⟩, decide_eq_true ?_, by simp⟩
    unfold Trie.imageSize Pool.totalBytes at htotal
    simp only [Header.imageSize, Header.ofTrie, Header.extent]
    omega
  unfold Header.corruption?
  rw [List.find?_eq_none.mpr fun rule hrule => by simp [hrules rule hrule]]
  rfl

end Trie.Encodable

/-! ### The records -/

section Records

variable {h : Header} {bytes : Array UInt8} {slots : Array Slot} {blocks : Array Block}
  {rejects : Array Int}

/-- Slots are read back if they fit, whatever the other records are. -/
theorem Pool.slots_ofBytes (backing : Backing)
    (hstands : Stands bytes Header.byteSize (partsBytes slots blocks rejects))
    (hcapacity : h.capacity.toNat = slots.size) (hfits : ∀ e, (slots.getD e {}).Fits) :
    (Pool.ofBytes h backing bytes).slots = slots := by
  have hlinks := hstands.left.left.right
  rw [length_nodeBytes] at hlinks
  have hslot : ∀ i (hi : i < slots.size),
      Slot.ofBytes bytes (Header.byteSize + i * Part.nodes.recordSize)
        (Header.byteSize + slots.size * Part.nodes.recordSize + i * Part.links.recordSize) =
      slots[i] := by
    intro i hi
    have hfit := hfits i
    rw [← Array.getElem_eq_getD (h := hi)] at hfit
    exact Slot.ofBytes_eq (hstands.left.left.left.flatMap (by simp [Part.recordSize]) hi)
      (hlinks.flatMap (by simp [Part.recordSize]) hi) hfit
  unfold Pool.ofBytes
  dsimp only
  rw [hcapacity, ofFn_eq rfl hslot]

/-- So are blocks. -/
theorem Pool.blocks_ofBytes (backing : Backing)
    (hstands : Stands bytes Header.byteSize (partsBytes slots blocks rejects))
    (hcapacity : h.capacity.toNat = slots.size) (hcount : blocks.size = slots.size / blockSize)
    (hfits : ∀ b, (blocks.getD b {}).Fits) : (Pool.ofBytes h backing bytes).blocks = blocks := by
  have hblocks := hstands.left.right
  simp only [List.length_append, length_nodeBytes, length_linkBytes, ← Nat.add_assoc] at hblocks
  have hblock : ∀ b (hb : b < blocks.size),
      Block.ofBytes bytes (Header.byteSize + slots.size * Part.nodes.recordSize +
        slots.size * Part.links.recordSize + b * Part.blocks.recordSize) = blocks[b] := by
    intro b hb
    have hfit := hfits b
    rw [← Array.getElem_eq_getD (h := hb)] at hfit
    exact Block.ofBytes_eq (hblocks.flatMap (by simp [Part.recordSize]) hb) hfit
  unfold Pool.ofBytes
  dsimp only
  rw [hcapacity, ← hcount, ofFn_eq rfl hblock]

/-- So are bounds. -/
theorem Pool.rejects_ofBytes (backing : Backing)
    (hstands : Stands bytes Header.byteSize (partsBytes slots blocks rejects))
    (hcapacity : h.capacity.toNat = slots.size) (hcount : blocks.size = slots.size / blockSize)
    (hsize : rejects.size = rejectCount) (hfits : ∀ n, Integer.Fits 2 (rejects.getD n 0)) :
    (Pool.ofBytes h backing bytes).rejects = rejects := by
  have hrejects := hstands.right
  simp only [List.length_append, length_nodeBytes, length_linkBytes, length_blockBytes,
    ← Nat.add_assoc] at hrejects
  have hreject : ∀ n (hn : n < rejects.size),
      Header.integerAt bytes (Header.byteSize + slots.size * Part.nodes.recordSize +
        slots.size * Part.links.recordSize + blocks.size * Part.blocks.recordSize +
        n * Part.rejects.recordSize) 2 = rejects[n] := by
    intro n hn
    have hfit := hfits n
    rw [← Array.getElem_eq_getD (h := hn)] at hfit
    exact (hrejects.flatMap (length_encode 2) hn).integerAt hfit
  unfold Pool.ofBytes
  dsimp only
  rw [hcapacity, ← hcount, ofFn_eq hsize.symm hreject]

/-- **The records of a trie are read back** from an image with its header. -/
theorem Trie.Encodable.ofBytes_eq {t : Trie} (ht : t.Encodable) (backing : Backing)
    (hstands : Stands bytes Header.byteSize
      (partsBytes t.pool.slots t.pool.blocks t.pool.rejects)) :
    Pool.ofBytes (Header.ofTrie t) backing bytes = { t.pool with backing, journal := #[] } := by
  have hcapacity : (Header.ofTrie t).capacity.toNat = t.pool.slots.size := Int.toNat_natCast _
  have hslots := Pool.slots_ofBytes backing hstands hcapacity ht.slots
  have hblocks := Pool.blocks_ofBytes backing hstands hcapacity ht.size_blocks ht.blocks
  have hrejects := Pool.rejects_ofBytes backing hstands hcapacity ht.size_blocks ht.size_rejects
    ht.rejects
  unfold Pool.ofBytes at hslots hblocks hrejects ⊢
  dsimp only at hslots hblocks hrejects ⊢
  rw [hslots, hblocks, hrejects]
  rfl

end Records

theorem Slot.rootEncoding?_eq {s : Slot} {e : Encoding} (hcheck : s.check = -1)
    (hbase : s.base = e.rootBase) : s.rootEncoding? = some e := by
  unfold Slot.rootEncoding?
  rw [if_neg (by rw [hcheck]; decide), hbase]
  cases e <;> rfl

/-- What is read from bytes that break no rule. -/
theorem Trie.ofImage?_eq {e : Encoding} {mode : LoadMode} {image : List UInt8} {h : Header}
    {o : Options} (hlong : ¬ image.length < Header.byteSize)
    (hheader : Header.decode image.toArray = h) (hrules : h.corruption? image.length = none)
    (hoptions : Options.ofFlags h.flags h.maxTrial = .ok o)
    (hroot : (Slot.ofBytes image.toArray Header.byteSize 0).rootEncoding? = some e) :
    Trie.ofImage? e mode image =
      .ok ⟨{ o with encoding := e }, .ofBytes h mode.backing image.toArray⟩ := by
  simp only [Trie.ofImage?, List.size_toArray, hlong, hheader, hrules, hoptions, hroot, if_true,
    if_false]

section Reading

variable {t : Trie} {slots : Array Slot} {blocks : Array Block} {rejects : Array Int}
  {parts rest : List UInt8}

/-- Where the parts stand behind a header. -/
theorem Image.stands_parts (h : Header) (parts rest : List UInt8) :
    Stands (h.encode ++ parts ++ rest).toArray Header.byteSize parts := by
  have hstands : Stands (h.encode ++ parts ++ rest).toArray 0 (h.encode ++ parts) := by
    rw [Stands, List.drop_zero]
    exact List.prefix_append ..
  have hparts := hstands.right
  rwa [Header.length_encode, Nat.zero_add] at hparts

/-- **Parts behind the header of a trie are read**, if there are as many records as it says and the
first slot is that of a root. -/
theorem Trie.Encodable.ofImage?_parts (h : t.Encodable) (hslots : slots.size = t.pool.slots.size)
    (hblocks : blocks.size = t.pool.blocks.size) (hrejects : rejects.size = t.pool.rejects.size)
    (hfits : (slots.getD 0 {}).Fits)
    (hroot : (slots.getD 0 {}).base = t.config.encoding.rootBase ∧ (slots.getD 0 {}).check = -1)
    (mode : LoadMode) (rest : List UInt8) :
    ofImage? t.config.encoding mode
        ((Header.ofTrie t).encode ++ partsBytes slots blocks rejects ++ rest) =
      .ok ⟨t.config, .ofBytes (Header.ofTrie t) mode.backing
        ((Header.ofTrie t).encode ++ partsBytes slots blocks rejects ++ rest).toArray⟩ := by
  have hparts := stands_parts (Header.ofTrie t) (partsBytes slots blocks rejects) rest
  have hlength : ((Header.ofTrie t).encode ++ partsBytes slots blocks rejects ++ rest).length =
      t.imageSize + rest.length := by
    rw [List.length_append, ← length_image]
    simp only [Trie.image, partsBytes, List.length_append, length_nodeBytes, length_linkBytes,
      length_blockBytes, length_rejectBytes, hslots, hblocks, hrejects]
  have hheader : Header.decode
      ((Header.ofTrie t).encode ++ partsBytes slots blocks rejects ++ rest).toArray =
        Header.ofTrie t := by
    refine Header.decode_eq ?_ h.header_fits
    rw [Stands, List.drop_zero]
    exact (List.prefix_append ..).trans (List.prefix_append ..)
  have hencoding : (Slot.ofBytes ((Header.ofTrie t).encode ++ partsBytes slots blocks rejects ++
      rest).toArray Header.byteSize 0).rootEncoding? = some t.config.encoding := by
    have hpos : 0 < slots.size := by
      rw [hslots]
      exact Nat.lt_of_lt_of_le (by decide) (Nat.le_trans h.size_pos h.size_le)
    have hnode := hparts.left.left.left.flatMap (w := 8) (by simp) hpos
    rw [Nat.zero_mul, Nat.add_zero] at hnode
    rw [← Array.getElem_eq_getD (h := hpos)] at hfits hroot
    exact Slot.rootEncoding?_eq ((Slot.check_ofBytes hnode hfits).trans hroot.2)
      ((Slot.base_ofBytes hnode hfits).trans hroot.1)
  have hoptions : Options.ofFlags (Header.ofTrie t).flags (Header.ofTrie t).maxTrial =
    .ok t.config.toOptions := Options.ofFlags_flags h.valid
  exact ofImage?_eq (by rw [hlength, imageSize]; omega) hheader
    (h.corruption?_eq (by omega)) hoptions hencoding

/-- **A trie is read back from its image**, whatever follows. -/
theorem Trie.ofImage?_image (h : t.Encodable) (mode : LoadMode) (rest : List UInt8) :
    Trie.ofImage? t.config.encoding mode (t.image ++ rest) =
      .ok ⟨t.config, { t.pool with backing := mode.backing, journal := #[] }⟩ := by
  have hread := h.ofImage?_parts rfl rfl rfl (h.slots 0) ⟨h.root_base, h.root_check⟩ mode rest
  rwa [h.ofBytes_eq mode.backing (stands_parts ..)] at hread

end Reading

end DoubleArrayTrie
