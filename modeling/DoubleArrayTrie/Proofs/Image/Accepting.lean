import DoubleArrayTrie.Proofs.Image.Canonical

/-!
# Which images are accepted

A byte string is read as a trie just if it begins with a valid image in the encoding that is asked
for. If it begins with one in the other encoding, the refusal says so; anything else is corrupt. What
is read has the bytes that it was read from as its image.

* `Header.Consistent`: the numbers of a header agree with each other and with the length.
* `Image.Valid`: the byte string begins with an image of a trie in the encoding.
* `Trie.ofImage?_eq_ok_iff`, `Trie.ofImage?_eq_mismatch_iff`, `Trie.ofImage?_eq_corrupt_iff`: the three
  outcomes.
* `Trie.image_of_ofImage?`: what is read is written back.
-/

namespace DoubleArrayTrie

open Image

/-! ### Headers -/

attribute [ext] Header

namespace Header

/-- The numbers of the header of an image with so many bytes agree with each other. -/
structure Consistent (h : Header) (total : Nat) : Prop where
  capacity : 256 ∣ h.capacity ∧ 256 ≤ h.capacity ∧ h.capacity ≤ 2147483648
  size : 256 ∣ h.size ∧ 256 ≤ h.size ∧ h.size ≤ h.capacity
  fullHead : 0 ≤ h.fullHead ∧ h.fullHead < h.size / 256
  closedHead : 0 ≤ h.closedHead ∧ h.closedHead < h.size / 256
  openHead : 0 ≤ h.openHead ∧ h.openHead < h.size / 256
  nodes : h.nodes = ⟨h.capacity, 8 * h.capacity⟩
  links : h.links = ⟨h.capacity, 2 * h.capacity⟩
  blocks : h.blocks = ⟨h.capacity / 256, 20 * (h.capacity / 256)⟩
  rejects : h.rejects = ⟨257, 514⟩
  total : 100 + (h.nodes.length + h.links.length + h.blocks.length + h.rejects.length) ≤ total

variable {h : Header} {total : Nat}

theorem partRules_iff {part : Part} {x : Extent} :
    (∀ rule ∈ h.partRules part x, rule.2 = true) ↔
      x = ⟨h.requiredCount part, part.recordSize * h.requiredCount part⟩ := by
  obtain ⟨count, length⟩ := x
  simp only [partRules, requiredLength, List.forall_mem_cons, beq_iff_eq, Extent.mk.injEq,
    Int.mul_comm]
  simp

/-- A header breaks no rule just if its numbers agree. -/
theorem corruption?_eq_none_iff : h.corruption? total = none ↔ h.Consistent total := by
  have hrules : h.corruption? total = none ↔ ∀ rule ∈ h.rules total, rule.2 = true := by
    simp [corruption?]
  have hnil : ∀ rule ∈ ([] : List (Corruption × Bool)), rule.2 = true := by simp
  rw [hrules]
  unfold rules headRule
  simp only [List.forall_mem_append, List.forall_mem_cons, partRules_iff, decide_eq_true_eq]
  simp only [requiredCount, Part.recordSize, imageSize, byteSize, blockSize, rejectCount]
  constructor
  · rintro ⟨⟨⟨⟨⟨⟨hcapacity, hsize, hfull, hclosed, hopen, -⟩, hnodes⟩, hlinks⟩, hblocks⟩,
      hrejects⟩, htotal, -⟩
    exact ⟨by omega, by omega, hfull, hclosed, hopen, hnodes, hlinks, hblocks, hrejects, by omega⟩
  · intro hc
    have hcapacity := hc.capacity
    have hsize := hc.size
    have htotal := hc.total
    exact ⟨⟨⟨⟨⟨⟨by omega, by omega, hc.fullHead, hc.closedHead, hc.openHead, hnil⟩, hc.nodes⟩,
      hc.links⟩, hc.blocks⟩, hc.rejects⟩, by omega, hnil⟩

namespace Consistent

/-- A consistent header says how long the parts are. -/
theorem partsLength_le (hc : h.Consistent total) :
    Header.byteSize + partsLength h.capacity.toNat ≤ total := by
  have hcapacity := hc.capacity
  have htotal := hc.total
  rw [hc.nodes, hc.links, hc.blocks, hc.rejects] at htotal
  simp only [partsLength, byteSize, blockSize, rejectCount, Part.recordSize]
  dsimp only at htotal
  omega

end Consistent

end Header

/-! ### Options -/

theorem Growth.code_ofCode (n : Nat) : (Growth.ofCode n).code = n := by
  cases n <;> rfl

/-- What a flags word of four bytes and a number of trials stand for. -/
theorem Options.ofFlags_eq_ok_iff {flags maxTrial : Int} {o : Options} (hfits : Integer.Fits 4 flags) :
    ofFlags flags maxTrial = .ok o ↔
      0 ≤ flags ∧ 1 ≤ maxTrial ∧ o = ⟨flags % 2 == 1, maxTrial, .ofCode (flags / 2).toNat⟩ := by
  obtain ⟨-, hhi⟩ := Integer.fits_four.mp hfits
  have hfault : fault? ⟨flags % 2 == 1, maxTrial, .ofCode (flags / 2).toNat⟩ =
      if maxTrial < 1 then some .noTrials else none := by
    unfold fault?
    dsimp only
    refine if_congr Iff.rfl rfl ?_
    cases hcode : (flags / 2).toNat with
    | zero => rfl
    | succ n =>
      have hmax : ¬ Growth.maxBlocks < n + 1 := by
        unfold Growth.maxBlocks
        omega
      simp only [Growth.ofCode]
      rw [if_neg (Nat.succ_ne_zero n), if_neg hmax]
  unfold ofFlags
  dsimp only
  rw [hfault]
  by_cases hflags : flags < 0
  · rw [if_pos hflags]
    simp only [reduceCtorEq, false_iff]
    omega
  · rw [if_neg hflags]
    by_cases hmax : maxTrial < 1
    · rw [if_pos hmax]
      simp only [reduceCtorEq, false_iff]
      omega
    · rw [if_neg hmax]
      simp only [Except.ok.injEq]
      constructor
      · rintro rfl
        exact ⟨by omega, by omega, rfl⟩
      · exact fun h => h.2.2.symm

/-- Options are refused only as corrupt. -/
theorem Options.ofFlags_error {flags maxTrial : Int} {err : Error}
    (h : ofFlags flags maxTrial = .error err) : ∃ cause, err = .corrupt cause := by
  unfold ofFlags at h
  dsimp only at h
  split_ifs at h
  · exact ⟨_, (Except.error.inj h).symm⟩
  · split at h
    · cases h
    · exact ⟨_, (Except.error.inj h).symm⟩

/-- The flags word is written back. -/
theorem Options.flags_ofFlags {flags : Int} (maxTrial : Int) (h : 0 ≤ flags) :
    flags = Options.flags ⟨flags % 2 == 1, maxTrial, .ofCode (flags / 2).toNat⟩ := by
  simp only [Options.flags, Growth.code_ofCode, beq_iff_eq]
  split_ifs <;> omega

theorem Slot.rootEncoding?_eq_some_iff {s : Slot} {e : Encoding} :
    s.rootEncoding? = some e ↔ s.base = e.rootBase ∧ s.check = -1 := by
  constructor
  · intro h
    unfold rootEncoding? at h
    split_ifs at h with hcheck hstandard hreduced
    · obtain rfl := Option.some.inj h
      exact ⟨hstandard, not_not.mp hcheck⟩
    · obtain rfl := Option.some.inj h
      exact ⟨hreduced, not_not.mp hcheck⟩
  · exact fun h => rootEncoding?_eq h.2 h.1

/-! ### Images -/

/-- The header that the bytes begin with. -/
def Image.header (b : List UInt8) : Header := .decode b.toArray

/-- The byte string begins with an image of a trie in this encoding. -/
structure Image.Valid (b : List UInt8) (e : Encoding) : Prop where
  long : 100 ≤ b.length
  consistent : (header b).Consistent b.length
  flags : 0 ≤ (header b).flags
  maxTrial : 1 ≤ (header b).maxTrial
  /-- The words of slot 0, which come first after the header. -/
  root : Header.integerAt b.toArray 100 4 = e.rootBase ∧ Header.integerAt b.toArray 104 4 = -1

/-- The length of the image that the bytes begin with. -/
def Image.length (b : List UInt8) : Nat :=
  100 + 8 * (header b).capacity.toNat + 2 * (header b).capacity.toNat +
    20 * ((header b).capacity.toNat / 256) + 514

namespace Image

variable {b : List UInt8}

theorem flags_fits (hlong : 100 ≤ b.length) : Integer.Fits 4 (header b).flags :=
  fits_integerAt (by rw [List.size_toArray]; omega)

end Image

namespace Trie

variable {b : List UInt8} {e found : Encoding} {mode : LoadMode} {t : Trie}

/-- The trie that a valid image in this encoding is of. -/
def ofValid (b : List UInt8) (e : Encoding) (mode : LoadMode) : Trie where
  config :=
    { ordered := (header b).flags % 2 == 1
      maxTrial := (header b).maxTrial
      growth := .ofCode ((header b).flags / 2).toNat
      encoding := e }
  pool := .ofBytes (header b) mode.backing b.toArray

/-- What is read from a valid image. -/
theorem ofImage?_of_valid (h : Valid b found) (e : Encoding) (mode : LoadMode) :
    ofImage? e mode b =
      if found = e then .ok (ofValid b e mode) else .error (.encodingMismatch e found) := by
  have hlong : ¬ b.length < Header.byteSize := Nat.not_lt.mpr h.long
  have hrules := Header.corruption?_eq_none_iff.mpr h.consistent
  have hoptions := (Options.ofFlags_eq_ok_iff (flags_fits h.long)).mpr ⟨h.flags, h.maxTrial, rfl⟩
  have hroot : (Slot.ofBytes b.toArray Header.byteSize 0).rootEncoding? = some found :=
    Slot.rootEncoding?_eq_some_iff.mpr h.root
  unfold header at hrules hoptions
  simp only [ofImage?, List.size_toArray, hlong, hrules, hoptions, hroot, if_false]
  rfl

/-- Everything else is corrupt. -/
theorem ofImage?_of_not_valid (h : ∀ found, ¬ Valid b found) (e : Encoding) (mode : LoadMode) :
    ∃ cause, ofImage? e mode b = .error (.corrupt cause) := by
  unfold ofImage?
  dsimp only
  rw [List.size_toArray]
  split_ifs with hshort
  · exact ⟨_, rfl⟩
  · have hlong : 100 ≤ b.length := Nat.not_lt.mp hshort
    cases hrules : (Header.decode b.toArray).corruption? b.length with
    | some cause => exact ⟨cause, rfl⟩
    | none =>
      cases hoptions : Options.ofFlags (Header.decode b.toArray).flags
          (Header.decode b.toArray).maxTrial with
      | error err =>
        obtain ⟨cause, rfl⟩ := Options.ofFlags_error hoptions
        exact ⟨cause, rfl⟩
      | ok o =>
        cases hroot : (Slot.ofBytes b.toArray Header.byteSize 0).rootEncoding? with
        | none => exact ⟨_, rfl⟩
        | some found =>
          obtain ⟨hflags, hmaxTrial, -⟩ :=
            (Options.ofFlags_eq_ok_iff (flags_fits hlong)).mp hoptions
          exact absurd ⟨hlong, Header.corruption?_eq_none_iff.mp hrules, hflags, hmaxTrial,
            Slot.rootEncoding?_eq_some_iff.mp hroot⟩ (h found)

/-- **A trie is read just if the bytes begin with a valid image** in the encoding. -/
theorem ofImage?_eq_ok_iff : ofImage? e mode b = .ok t ↔ Valid b e ∧ t = ofValid b e mode := by
  constructor
  · intro hread
    by_cases hvalid : ∃ found, Valid b found
    · obtain ⟨found, hfound⟩ := hvalid
      rw [ofImage?_of_valid hfound] at hread
      split_ifs at hread with heq
      subst heq
      exact ⟨hfound, (Except.ok.inj hread).symm⟩
    · obtain ⟨cause, hcause⟩ := ofImage?_of_not_valid (not_exists.mp hvalid) e mode
      rw [hread] at hcause
      cases hcause
  · rintro ⟨hvalid, rfl⟩
    rw [ofImage?_of_valid hvalid, if_pos rfl]

/-- **The other encoding is named** just if the bytes begin with a valid image in it. -/
theorem ofImage?_eq_mismatch_iff {expected : Encoding} :
    ofImage? e mode b = .error (.encodingMismatch expected found) ↔
      expected = e ∧ found ≠ e ∧ Valid b found := by
  constructor
  · intro hread
    by_cases hvalid : ∃ found, Valid b found
    · obtain ⟨found', hfound⟩ := hvalid
      rw [ofImage?_of_valid hfound] at hread
      split_ifs at hread with heq
      obtain ⟨rfl, rfl⟩ := Error.encodingMismatch.inj (Except.error.inj hread)
      exact ⟨rfl, heq, hfound⟩
    · obtain ⟨cause, hcause⟩ := ofImage?_of_not_valid (not_exists.mp hvalid) e mode
      rw [hread] at hcause
      cases hcause
  · rintro ⟨rfl, hne, hvalid⟩
    rw [ofImage?_of_valid hvalid, if_neg hne]

/-- **Just the rest is corrupt.** -/
theorem ofImage?_eq_corrupt_iff :
    (∃ cause, ofImage? e mode b = .error (.corrupt cause)) ↔ ∀ found, ¬ Valid b found := by
  constructor
  · rintro ⟨cause, hcause⟩ found hvalid
    rw [ofImage?_of_valid hvalid] at hcause
    split_ifs at hcause
    cases hcause
  · exact fun h => ofImage?_of_not_valid h e mode

/-- The mode makes no difference to whether bytes are accepted, and why not. -/
theorem ofImage?_mode (e : Encoding) (mode : LoadMode) (b : List UInt8) : ofImage? e mode b =
    (ofImage? e .copy b).map fun t => { t with pool := { t.pool with backing := mode.backing } } := by
  unfold ofImage?
  dsimp only
  split_ifs
  · rfl
  · cases (Header.decode b.toArray).corruption? b.toArray.size with
    | some cause => rfl
    | none =>
      cases Options.ofFlags (Header.decode b.toArray).flags (Header.decode b.toArray).maxTrial with
      | error err => rfl
      | ok o =>
        cases (Slot.ofBytes b.toArray Header.byteSize 0).rootEncoding? with
        | none => rfl
        | some found =>
          dsimp only
          split_ifs
          · simp only [Except.map, Pool.ofBytes]
          · rfl

/-! ### Written back -/

/-- The header of the trie is the one that was read. -/
theorem header_ofValid (h : Valid b e) (mode : LoadMode) :
    Header.ofTrie (ofValid b e mode) = header b := by
  obtain ⟨hcapacity, hsize, hfull, hclosed, hopen, hnodes, hlinks, hblocks, hrejects, -⟩ :=
    h.consistent
  have hflags := Options.flags_ofFlags (header b).maxTrial h.flags
  have hslots := Pool.size_slots_ofBytes (header b) mode.backing b.toArray
  have hblocksSize := Pool.size_blocks_ofBytes (header b) mode.backing b.toArray
  have hrejectsSize := Pool.size_rejects_ofBytes (header b) mode.backing b.toArray
  unfold blockSize at hblocksSize
  have hcount : ∀ part, ((ofValid b e mode).pool.recordCount part : Int) =
      (header b).requiredCount part := by
    intro part
    cases part with
    | nodes | links =>
      show ((Pool.ofBytes (header b) mode.backing b.toArray).slots.size : Int) = (header b).capacity
      omega
    | blocks =>
      show ((Pool.ofBytes (header b) mode.backing b.toArray).blocks.size : Int) =
        (header b).capacity / 256
      omega
    | rejects => exact congrArg Int.ofNat hrejectsSize
  have hextent : ∀ part, Header.extent (ofValid b e mode).pool part =
      ⟨(header b).requiredCount part, part.recordSize * (header b).requiredCount part⟩ := by
    intro part
    simp only [Header.extent, Pool.byteSize, Int.natCast_mul, hcount, Int.mul_comm]
  exact Header.ext hflags.symm (Int.toNat_of_nonneg hfull.1) (Int.toNat_of_nonneg hclosed.1)
    (Int.toNat_of_nonneg hopen.1) rfl (hcount .nodes) (Int.toNat_of_nonneg (by omega))
    ((hextent .nodes).trans hnodes.symm) ((hextent .links).trans hlinks.symm)
    ((hextent .blocks).trans hblocks.symm) ((hextent .rejects).trans hrejects.symm)

/-- **What is read is written back** as the bytes that it was read from. -/
theorem image_of_ofImage? (h : ofImage? e mode b = .ok t) : t.image = b.take (Image.length b) := by
  obtain ⟨hvalid, rfl⟩ := ofImage?_eq_ok_iff.mp h
  have hlong : Header.byteSize ≤ b.toArray.size := by
    rw [List.size_toArray]
    exact hvalid.long
  have hparts := Pool.partsBytes_ofBytes mode.backing (show
      Header.byteSize + partsLength (header b).capacity.toNat ≤ b.toArray.size by
    rw [List.size_toArray]
    exact hvalid.consistent.partsLength_le)
  have hlength : Image.length b = Header.byteSize + partsLength (header b).capacity.toNat := by
    simp only [Image.length, partsLength, Header.byteSize, blockSize, rejectCount, Part.recordSize]
    omega
  rw [image, header_ofValid hvalid]
  refine (congrArg₂ (· ++ ·) (Header.encode_decode hlong) hparts).trans ?_
  have hsplit := slice_append b.toArray 0 Header.byteSize (partsLength (header b).capacity.toNat)
  rw [Nat.zero_add] at hsplit
  rw [hsplit, hlength, slice, List.drop_zero]

end Trie

end DoubleArrayTrie
