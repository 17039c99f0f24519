import Mathlib.Algebra.GroupWithZero.Nat
import DoubleArrayTrie.Proofs.Image.Accepting

/-!
# Images are read within bounds

A reader that looks at the bytes piece by piece may ask for a piece that is not there, and the lengths
and offsets that it computes may be too large for a word. Here every such step is *guarded*: a reader
ends with `none` at the first piece out of bounds and at the first number that does not fit, on a machine
whose words have 8 bytes. There is one reader for a byte string and one for a file, which reads the
header apart from the rest and maps each part by itself.

* `Image.readBytes?`, `Image.readFile?`: the guarded readers.
* `Image.readBytes?_eq`, `Image.readFile?_eq`: neither ever ends so, and both read what
  `Trie.ofImage?` reads.
-/

namespace DoubleArrayTrie

namespace Image

/-! ### Guarded steps -/

/-- An integer, if a signed word of 8 bytes holds it. -/
def word? (i : Int) : Option Int :=
  if -9223372036854775808 ≤ i ∧ i ≤ 9223372036854775807 then some i else none

/-- An offset, if the machine can count so far: its offsets are unsigned words of 8 bytes. -/
def offset? (n : Nat) : Option Nat := if n < 18446744073709551616 then some n else none

/-- A signed word of 8 bytes, taken for an offset of the same width. -/
def toOffset (i : Int) : Nat := (i % 18446744073709551616).toNat

/-- A part of a byte string, by its place. -/
structure Section where
  offset : Nat
  length : Nat

/-- The bytes in their place, if all are there. -/
def piece? (b : List UInt8) (s : Section) : Option (List UInt8) :=
  (offset? (s.offset + s.length)).bind fun stop =>
    if stop ≤ b.length then some ((b.drop s.offset).take s.length) else none

/-- The integer in so many bytes at an offset, if all are there. -/
def integer? (b : List UInt8) (offset width : Nat) : Option Int :=
  (piece? b ⟨offset, width⟩).map Integer.decode

/-! ### Guarded readers -/

/-- The header. -/
def header? (b : List UInt8) : Option (Except Corruption Header) :=
  if b.length < Header.byteSize then some (.error .shortHeader)
  else do
    let flags ← integer? b 0 4
    let fullHead ← integer? b 4 4
    let closedHead ← integer? b 8 4
    let openHead ← integer? b 12 4
    let maxTrial ← integer? b 16 4
    let capacity ← integer? b 20 8
    let size ← integer? b 28 8
    let nodeCount ← integer? b 36 8
    let linkCount ← integer? b 44 8
    let blockCount ← integer? b 52 8
    let rejectCount ← integer? b 60 8
    let nodeLength ← integer? b 68 8
    let linkLength ← integer? b 76 8
    let blockLength ← integer? b 84 8
    let rejectLength ← integer? b 92 8
    some (.ok
      { flags, fullHead, closedHead, openHead, maxTrial, capacity, size
        nodes := ⟨nodeCount, nodeLength⟩
        links := ⟨linkCount, linkLength⟩
        blocks := ⟨blockCount, blockLength⟩
        rejects := ⟨rejectCount, rejectLength⟩ })

/-- The places of parts that follow one another from an offset on, and the offset where they end. -/
def place? (h : Header) : List (Part × Extent) → Nat → Option (Except Corruption (List Section × Nat))
  | [], offset => some (.ok ([], offset))
  | (part, x) :: parts, offset =>
      if x.count ≠ h.requiredCount part then some (.error .recordCount)
      else do
        let length ← word? (h.requiredCount part * part.recordSize)
        if x.length ≠ length then some (.error .sectionLength)
        else
          let next ← offset? (offset + toOffset x.length)
          let placed ← place? h parts next
          some (placed.map fun (sections, stop) => (⟨offset, toOffset x.length⟩ :: sections, stop))

/-- The parts, in order. -/
def parts (h : Header) : List (Part × Extent) :=
  [(.nodes, h.nodes), (.links, h.links), (.blocks, h.blocks), (.rejects, h.rejects)]

/-- The places of the four parts in so many bytes, once the numbers of the header are checked. -/
def sections? (h : Header) (total : Nat) : Option (Except Corruption (List Section)) :=
  if h.capacity < blockSize ∨ h.capacity % blockSize ≠ 0 ∨ h.capacity > 2147483648 then
    some (.error .capacity)
  else if h.size < blockSize ∨ h.size % blockSize ≠ 0 ∨ h.size > h.capacity then
    some (.error .size)
  else if ∃ head ∈ [h.fullHead, h.closedHead, h.openHead], head < 0 ∨ head ≥ h.size / blockSize then
    some (.error .ringHead)
  else do
    match ← place? h (parts h) Header.byteSize with
    | .error cause => some (.error cause)
    | .ok (sections, stop) =>
        if stop > total then some (.error .truncated) else some (.ok sections)

/-- The pool whose parts have these bytes. -/
def poolOf (h : Header) (backing : Backing) (nodes links blocks rejects : List UInt8) : Pool where
  slots := Array.ofFn fun i : Fin (nodes.length / Part.nodes.recordSize) =>
    { base := Header.integerAt nodes.toArray (i * Part.nodes.recordSize) 4
      check := Header.integerAt nodes.toArray (i * Part.nodes.recordSize + 4) 4
      sibling := links.toArray.getD (i * Part.links.recordSize) 0
      child := links.toArray.getD (i * Part.links.recordSize + 1) 0 }
  blocks := Array.ofFn fun i : Fin (blocks.length / Part.blocks.recordSize) =>
    .ofBytes blocks.toArray (i * Part.blocks.recordSize)
  rejects := Array.ofFn fun i : Fin (rejects.length / Part.rejects.recordSize) =>
    Header.integerAt rejects.toArray (i * Part.rejects.recordSize) 2
  fullHead := h.fullHead.toNat
  closedHead := h.closedHead.toNat
  openHead := h.openHead.toNat
  size := h.size.toNat
  backing

/-- What is wrong with the words of the root. -/
def rootFault? (e : Encoding) (base check : Int) : Option Error :=
  if check ≠ -1 then some (.corrupt .root)
  else if base ≠ e.rootBase then
    if base = Encoding.standard.rootBase then some (.encodingMismatch e .standard)
    else if base = Encoding.reduced.rootBase then some (.encodingMismatch e .reduced)
    else some (.corrupt .root)
  else none

/-- The trie with this header whose parts have these bytes. -/
def assemble? (e : Encoding) (backing : Backing) (h : Header) :
    List (List UInt8) → Option (Except Error Trie)
  | [nodes, links, blocks, rejects] =>
      match Options.ofFlags h.flags h.maxTrial with
      | .error err => some (.error err)
      | .ok o => do
          let root ← piece? nodes ⟨0, Part.nodes.recordSize⟩
          let base ← integer? root 0 4
          let check ← integer? root 4 4
          match rootFault? e base check with
          | some err => some (.error err)
          | none =>
              some (.ok ⟨{ o with encoding := e }, poolOf h backing nodes links blocks rejects⟩)
  | _ => none

/-- The trie whose image the byte string begins with. -/
def readBytes? (e : Encoding) (b : List UInt8) : Option (Except Error Trie) := do
  match ← header? b with
  | .error cause => some (.error (.corrupt cause))
  | .ok h =>
      match ← sections? h b.length with
      | .error cause => some (.error (.corrupt cause))
      | .ok sections =>
          let pieces ← sections.mapM (piece? b)
          assemble? e .heap h pieces

/-- The trie whose image the file begins with. The header is read first, from bytes of its own. -/
def readFile? (e : Encoding) (file : List UInt8) : Option (Except Error Trie) :=
  if file.length < Header.byteSize then some (.error (.corrupt .shortHeader))
  else do
    let head ← piece? file ⟨0, Header.byteSize⟩
    match ← header? head with
    | .error cause => some (.error (.corrupt cause))
    | .ok h =>
        match ← sections? h file.length with
        | .error cause => some (.error (.corrupt cause))
        | .ok sections =>
            let pieces ← sections.mapM (piece? file)
            assemble? e .mapped h pieces

/-! ### Pieces -/

variable {b : List UInt8} {k n j w : Nat}

theorem piece?_eq {s : Section} (h : s.offset + s.length ≤ b.length)
    (hword : s.offset + s.length < 18446744073709551616) :
    piece? b s = some (slice b.toArray s.offset s.length) := by
  unfold piece? offset?
  rw [if_pos hword, Option.bind_some, if_pos h]
  rfl

theorem integer?_eq (h : k + w ≤ b.length) (hword : k + w < 18446744073709551616) :
    integer? b k w = some (Header.integerAt b.toArray k w) := by
  unfold integer?
  rw [piece?_eq h hword, integerAt_eq]
  rfl

/-- A piece of a piece. -/
theorem slice_slice (bytes : Array UInt8) (h : j + w ≤ n) :
    slice (slice bytes k n).toArray j w = slice bytes (k + j) w := by
  unfold slice
  rw [List.drop_take, List.drop_drop, List.take_take, Nat.min_eq_left (by omega)]

theorem integerAt_slice (bytes : Array UInt8) (h : j + w ≤ n) :
    Header.integerAt (slice bytes k n).toArray j w = Header.integerAt bytes (k + j) w := by
  rw [integerAt_eq, integerAt_eq, slice_slice bytes h]

theorem getD_slice (bytes : Array UInt8) (h : j < n) :
    (slice bytes k n).toArray.getD j 0 = bytes.getD (k + j) 0 := by
  unfold slice
  rw [Array.getD_eq_getD_getElem?, Array.getD_eq_getD_getElem?, List.getElem?_toArray,
    List.getElem?_take_of_lt h, List.getElem?_drop, Array.getElem?_toList]

/-! ### Headers -/

theorem header?_eq (b : List UInt8) : header? b =
    some (if b.length < Header.byteSize then .error .shortHeader else .ok (header b)) := by
  unfold header?
  split_ifs with hshort
  · rfl
  · unfold Header.byteSize at hshort
    have hinteger : ∀ k w, k + w ≤ 100 → integer? b k w = some (Header.integerAt b.toArray k w) :=
      fun k w h => integer?_eq (by omega) (by omega)
    simp (disch := decide) only [hinteger, Option.bind_eq_bind, Option.bind_some]
    rfl

/-- The header is read from its own bytes as well as from all. -/
theorem header_take (h : 100 ≤ n) : header (b.take n) = header b := by
  have hread : ∀ k w, k + w ≤ 100 →
      Header.integerAt (b.take n).toArray k w = Header.integerAt b.toArray k w := by
    intro k w hk
    have hslice := integerAt_slice (k := 0) (n := n) b.toArray (by omega : k + w ≤ n)
    rwa [slice, List.drop_zero, Nat.zero_add] at hslice
  unfold header Header.decode
  dsimp only
  simp (disch := decide) only [hread]

/-! ### Sections -/

/-- The places of parts that follow one another from an offset on. -/
def places (h : Header) : List (Part × Extent) → Nat → List Section
  | [], _ => []
  | (part, _) :: parts, offset =>
      let length := (h.requiredLength part).toNat
      ⟨offset, length⟩ :: places h parts (offset + length)

/-- No count of records is negative or more than the largest arrays have. -/
theorem requiredCount_bounds {h : Header} (hlow : blockSize ≤ h.capacity)
    (hhigh : h.capacity ≤ 2147483648) (part : Part) :
    0 ≤ h.requiredCount part ∧ h.requiredCount part ≤ 2147483648 := by
  unfold blockSize at hlow
  cases part <;> simp only [Header.requiredCount, blockSize, rejectCount] <;> omega

/-- Parts that break no rule on their size end where the image ends. -/
theorem stop_eq_imageSize {h : Header} (hcount : ∀ part, 0 ≤ h.requiredCount part)
    (hrules : ∀ part ∈ parts h, ∀ rule ∈ h.partRules part.1 part.2, rule.2) :
    ((Header.byteSize + ((parts h).map fun part => (h.requiredLength part.1).toNat).sum : Nat) : Int) =
      h.imageSize := by
  have hlength : ∀ part ∈ parts h, part.2.length = part.1.recordSize * h.requiredCount part.1 :=
    fun part hpart => congrArg Extent.length (Header.partRules_iff.mp (hrules part hpart))
  have hnodes := hlength (.nodes, h.nodes) (by simp [parts])
  have hlinks := hlength (.links, h.links) (by simp [parts])
  have hblocks := hlength (.blocks, h.blocks) (by simp [parts])
  have hrejects := hlength (.rejects, h.rejects) (by simp [parts])
  have hcountNodes := hcount .nodes
  have hcountLinks := hcount .links
  have hcountBlocks := hcount .blocks
  have hcountRejects := hcount .rejects
  simp only [parts, List.map_cons, List.map_nil, List.sum_cons, List.sum_nil,
    Header.requiredLength, Header.imageSize, Part.recordSize] at *
  omega

/-- Parts are placed unless one of them breaks a rule on its size, the first such rule being named. No
number on the way is too large for a word. -/
theorem place?_eq {h : Header} (hcount : ∀ part, 0 ≤ h.requiredCount part ∧
      h.requiredCount part ≤ 2147483648) (list : List (Part × Extent)) (offset : Nat)
    (hword : offset + list.length * 42949672960 < 18446744073709551616) :
    place? h list offset = some
      (match (list.flatMap fun part => h.partRules part.1 part.2).find? fun rule => !rule.2 with
      | some rule => .error rule.1
      | none => .ok (places h list offset,
          offset + (list.map fun part => (h.requiredLength part.1).toNat).sum)) := by
  induction list generalizing offset with
  | nil => rfl
  | cons entry list ih =>
    obtain ⟨part, count, length⟩ := entry
    have hpart := hcount part
    have hlength : 0 ≤ h.requiredLength part ∧ h.requiredLength part ≤ 42949672960 := by
      unfold Header.requiredLength
      cases part <;> simp only [Part.recordSize] <;> omega
    rw [List.length_cons] at hword
    have hrules : h.partRules part ⟨count, length⟩ =
        [(.recordCount, count == h.requiredCount part),
          (.sectionLength, length == h.requiredLength part)] := rfl
    unfold place?
    rw [List.flatMap_cons, hrules]
    simp only [List.cons_append, List.nil_append, List.find?_cons, Option.bind_eq_bind]
    by_cases hc : count = h.requiredCount part
    · have hwordLength : word? (h.requiredCount part * part.recordSize) =
          some (h.requiredLength part) := if_pos (by unfold Header.requiredLength at hlength; omega)
      rw [if_neg (not_not.mpr hc), hwordLength, Option.bind_some]
      by_cases hl : length = h.requiredLength part
      · have hto : toOffset length = (h.requiredLength part).toNat := by
          unfold toOffset
          omega
        have hnext : offset? (offset + (h.requiredLength part).toNat) =
            some (offset + (h.requiredLength part).toNat) := if_pos (by omega)
        rw [if_neg (not_not.mpr hl), hto, hnext, Option.bind_some, ih _ (by omega), Option.bind_some]
        simp only [hc, hl, beq_self_eq_true, Bool.not_true]
        cases (list.flatMap fun part => h.partRules part.1 part.2).find? fun rule => !rule.2 with
        | none => simp [Except.map, places, Nat.add_assoc]
        | some rule => rfl
      · rw [if_pos hl]
        simp only [hc, beq_self_eq_true, beq_eq_false_iff_ne.mpr hl, Bool.not_true, Bool.not_false]
    · rw [if_pos hc]
      simp only [beq_eq_false_iff_ne.mpr hc, Bool.not_false]

/-- The first of several rules is broken, or not. -/
theorem find?_rule (cause : Corruption) (P : Prop) [Decidable P] (rules : List (Corruption × Bool)) :
    ((((cause, decide P) :: rules).find? fun rule => !rule.2).map (·.1)) =
      if P then (rules.find? fun rule => !rule.2).map (·.1) else some cause := by
  rw [List.find?_cons]
  split_ifs with hP
  · rw [decide_eq_true hP]
    rfl
  · rw [decide_eq_false hP]
    rfl

/-- The numbers of a header are checked in the order of the rules. -/
theorem sections?_eq (h : Header) (total : Nat) : sections? h total = some
    (match h.corruption? total with
    | some cause => .error cause
    | none => .ok (places h (parts h) Header.byteSize)) := by
  have hrules : h.rules total =
      (.capacity, decide (blockSize ≤ h.capacity ∧ h.capacity % blockSize = 0 ∧
        h.capacity ≤ 2147483648)) ::
      (.size, decide (blockSize ≤ h.size ∧ h.size % blockSize = 0 ∧ h.size ≤ h.capacity)) ::
      h.headRule h.fullHead :: h.headRule h.closedHead :: h.headRule h.openHead ::
      (((parts h).flatMap fun part => h.partRules part.1 part.2) ++
        [(.truncated, decide (h.imageSize ≤ total))]) := by
    simp only [Header.rules, parts, List.flatMap_cons, List.flatMap_nil, List.append_assoc,
      List.cons_append, List.nil_append, List.append_nil]
  unfold Header.corruption?
  rw [hrules]
  unfold sections? Header.headRule
  simp only [find?_rule]
  -- the numbers
  by_cases hcapacity : blockSize ≤ h.capacity ∧ h.capacity % blockSize = 0 ∧ h.capacity ≤ 2147483648
  swap
  · rw [if_pos (by omega), if_neg hcapacity]
  rw [if_neg (by omega), if_pos hcapacity]
  by_cases hsize : blockSize ≤ h.size ∧ h.size % blockSize = 0 ∧ h.size ≤ h.capacity
  swap
  · rw [if_pos (by omega), if_neg hsize]
  rw [if_neg (by omega), if_pos hsize]
  by_cases hheads : ∃ head ∈ [h.fullHead, h.closedHead, h.openHead], head < 0 ∨ head ≥ h.size / blockSize
  · rw [if_pos hheads]
    simp only [List.exists_mem_cons_iff, List.not_mem_nil, false_and, exists_false, or_false] at hheads
    split_ifs
    · omega
    all_goals rfl
  rw [if_neg hheads]
  simp only [List.exists_mem_cons_iff, List.not_mem_nil, false_and, exists_false, or_false] at hheads
  rw [if_pos (by omega), if_pos (by omega), if_pos (by omega)]
  -- the parts
  have hcount := requiredCount_bounds hcapacity.1 hcapacity.2.2
  rw [place?_eq hcount _ _ (by simp [parts, Header.byteSize]), List.find?_append]
  cases hfind : ((parts h).flatMap fun part => h.partRules part.1 part.2).find? fun rule => !rule.2 with
  | some rule => rfl
  | none =>
    have himageSize := stop_eq_imageSize (fun part => (hcount part).1) fun part hpart rule hrule => by
      simpa using List.find?_eq_none.mp hfind rule (List.mem_flatMap.mpr ⟨part, hpart, hrule⟩)
    rw [Option.none_or]
    simp only [Option.bind_eq_bind, Option.bind_some, List.find?_cons, List.find?_nil]
    by_cases htotal : h.imageSize ≤ total
    · rw [if_neg (by omega), decide_eq_true htotal]
      rfl
    · rw [if_pos (by omega), decide_eq_false htotal]
      rfl

/-! ### Parts -/

/-- Parts that follow one another end at the end of the last. -/
theorem stop_le_of_mem_places {h : Header} {s : Section} {list : List (Part × Extent)} {offset : Nat}
    (hs : s ∈ places h list offset) : s.offset + s.length ≤
      offset + (list.map fun part => (h.requiredLength part.1).toNat).sum := by
  induction list generalizing offset with
  | nil => cases hs
  | cons entry list ih =>
    rw [List.map_cons, List.sum_cons]
    rcases List.mem_cons.mp hs with rfl | hs
    · dsimp only
      omega
    · have := ih hs
      omega

theorem mapM_piece? {list : List Section}
    (h : ∀ s ∈ list, s.offset + s.length ≤ b.length ∧ s.offset + s.length < 18446744073709551616) :
    list.mapM (piece? b) = some (list.map fun s => slice b.toArray s.offset s.length) := by
  induction list with
  | nil => rfl
  | cons s list ih =>
    obtain ⟨hs, hlist⟩ := List.forall_mem_cons.mp h
    rw [List.mapM_cons, piece?_eq hs.1 hs.2, ih hlist]
    rfl

theorem ofFn_congr {α : Type} {n m : Nat} (hn : m = n) {f : Fin n → α} {g : Fin m → α}
    (h : ∀ i : Fin m, f (i.cast hn) = g i) : Array.ofFn f = Array.ofFn g := by
  subst hn
  exact congrArg Array.ofFn (funext h)

/-- The pool is put together from the parts as well as from all bytes. -/
theorem poolOf_eq {h : Header} {bytes : Array UInt8} (backing : Backing) {n m r : Nat}
    (hn : h.capacity.toNat = n) (hm : n / blockSize = m) (hr : rejectCount = r)
    (hlong : 100 + n * 8 + n * 2 + m * 20 + r * 2 ≤ bytes.size) :
    poolOf h backing (slice bytes 100 (n * 8)) (slice bytes (100 + n * 8) (n * 2))
      (slice bytes (100 + n * 8 + n * 2) (m * 20))
      (slice bytes (100 + n * 8 + n * 2 + m * 20) (r * 2)) = .ofBytes h backing bytes := by
  have hnodes : (slice bytes 100 (n * 8)).length = n * 8 := length_slice (by omega)
  have hblocks : (slice bytes (100 + n * 8 + n * 2) (m * 20)).length = m * 20 :=
    length_slice (by omega)
  have hrejects : (slice bytes (100 + n * 8 + n * 2 + m * 20) (r * 2)).length = r * 2 :=
    length_slice (by omega)
  subst hn
  unfold poolOf Pool.ofBytes
  simp only [Part.recordSize, Pool.mk.injEq, and_true]
  refine ⟨ofFn_congr (by rw [hnodes]; omega) fun i => ?_,
    ofFn_congr (by rw [hblocks, hm]; omega) fun i => ?_,
    ofFn_congr (by rw [hrejects, hr]; omega) fun i => ?_⟩
  · have hi := i.isLt
    exact Slot.ext (integerAt_slice bytes (by simp; omega)) (integerAt_slice bytes (by simp; omega))
      (getD_slice bytes (by simp; omega)) (getD_slice bytes (by simp; omega))
  · have hi : i < m := hm ▸ i.isLt
    unfold Block.ofBytes
    simp (disch := omega) only [Fin.val_cast, integerAt_slice, Nat.add_assoc]
    rfl
  · have hi : i < r := hr ▸ i.isLt
    rw [hm]
    exact integerAt_slice bytes (by simp; omega)

/-! ### Tries -/

/-- The words of the root are checked as `Slot.rootEncoding?` says. -/
theorem rootFault?_eq (root : Slot) (e : Encoding) : rootFault? e root.base root.check =
    match root.rootEncoding? with
    | none => some (.corrupt .root)
    | some found => if found = e then none else some (.encodingMismatch e found) := by
  unfold rootFault?
  cases hroot : root.rootEncoding? with
  | none =>
    unfold Slot.rootEncoding? at hroot
    split_ifs at hroot with hcheck hstandard hreduced
    · rw [if_pos hcheck]
    · have hbase : root.base ≠ e.rootBase := by cases e <;> assumption
      rw [if_neg hcheck, if_pos hbase, if_neg hstandard, if_neg hreduced]
  | some found =>
    obtain ⟨hbase, hcheck⟩ := Slot.rootEncoding?_eq_some_iff.mp hroot
    rw [if_neg (not_not.mpr hcheck), hbase]
    cases found <;> cases e <;> rfl

section Consistent

variable (hlong : 100 ≤ b.length) (hc : (header b).Consistent b.length)

include hc

/-- The four pieces are all there. -/
theorem pieces_eq : (places (header b) (parts (header b)) Header.byteSize).mapM (piece? b) =
    some [slice b.toArray 100 ((header b).capacity.toNat * 8),
      slice b.toArray (100 + (header b).capacity.toNat * 8) ((header b).capacity.toNat * 2),
      slice b.toArray (100 + (header b).capacity.toNat * 8 + (header b).capacity.toNat * 2)
        ((header b).capacity.toNat / blockSize * 20),
      slice b.toArray (100 + (header b).capacity.toNat * 8 + (header b).capacity.toNat * 2 +
        (header b).capacity.toNat / blockSize * 20) (rejectCount * 2)] := by
  have hcapacity := hc.capacity
  have hlength := hc.partsLength_le
  have hrequired : ((header b).requiredLength .nodes).toNat = (header b).capacity.toNat * 8 ∧
      ((header b).requiredLength .links).toNat = (header b).capacity.toNat * 2 ∧
      ((header b).requiredLength .blocks).toNat = (header b).capacity.toNat / blockSize * 20 ∧
      ((header b).requiredLength .rejects).toNat = rejectCount * 2 := by
    simp only [Header.requiredLength, Header.requiredCount, Part.recordSize, blockSize, rejectCount]
    omega
  obtain ⟨hnodes, hlinks, hblocks, hrejects⟩ := hrequired
  rw [mapM_piece? fun s hs => ?_]
  · simp only [parts, places, List.map_cons, List.map_nil, hnodes, hlinks, hblocks, hrejects]
    rfl
  · have hstop := stop_le_of_mem_places hs
    simp only [parts, List.map_cons, List.map_nil, List.sum_cons, List.sum_nil, hnodes, hlinks,
      hblocks, hrejects] at hstop
    simp only [partsLength, Part.recordSize] at hlength
    unfold Header.byteSize blockSize rejectCount at *
    omega

include hlong

/-- The trie that is put together from the four pieces is the one that is read. -/
theorem assemble?_eq (e : Encoding) (mode : LoadMode) :
    ((places (header b) (parts (header b)) Header.byteSize).mapM (piece? b)).bind
      (assemble? e mode.backing (header b)) = some (Trie.ofImage? e mode b) := by
  have hparts := hc.partsLength_le
  have hcapacity := hc.capacity
  have hrules := Header.corruption?_eq_none_iff.mpr hc
  unfold header at hrules
  have hnodes : (slice b.toArray 100 ((header b).capacity.toNat * 8)).length =
      (header b).capacity.toNat * 8 := by
    simp only [partsLength, Part.recordSize, Header.byteSize] at hparts
    exact length_slice (by rw [List.size_toArray]; omega)
  have hpool := poolOf_eq mode.backing rfl rfl rfl (show 100 + (header b).capacity.toNat * 8 +
      (header b).capacity.toNat * 2 + (header b).capacity.toNat / blockSize * 20 +
      rejectCount * 2 ≤ b.toArray.size by
    simp only [partsLength, Part.recordSize, Header.byteSize] at hparts
    rw [List.size_toArray]
    omega)
  have hroot : piece? (slice b.toArray 100 ((header b).capacity.toNat * 8)) ⟨0, 8⟩ =
      some (slice b.toArray 100 8) := by
    rw [piece?_eq (by simp only; omega) (by decide), slice_slice _ (by simp only; omega)]
    rfl
  have hlength : (slice b.toArray 100 8).length = 8 := by
    simp only [partsLength, Part.recordSize, Header.byteSize] at hparts
    exact length_slice (by rw [List.size_toArray]; omega)
  have hbase : integer? (slice b.toArray 100 8) 0 4 = some (Slot.ofBytes b.toArray 100 0).base := by
    rw [integer?_eq (by omega) (by omega), integerAt_slice _ (by omega)]
    rfl
  have hcheck : integer? (slice b.toArray 100 8) 4 4 =
      some (Slot.ofBytes b.toArray 100 0).check := by
    rw [integer?_eq (by omega) (by omega), integerAt_slice _ (by omega)]
    rfl
  rw [pieces_eq hc, Option.bind_some]
  unfold assemble? Trie.ofImage?
  simp only [List.size_toArray, Nat.not_lt.mpr hlong, Header.byteSize, if_false, hrules, hpool]
  rw [show Header.decode b.toArray = header b from rfl]
  cases Options.ofFlags (header b).flags (header b).maxTrial with
  | error err => rfl
  | ok o =>
    simp only [Part.recordSize, hroot, hbase, hcheck, rootFault?_eq, Option.bind_eq_bind,
      Option.bind_some]
    cases (Slot.ofBytes b.toArray 100 0).rootEncoding? with
    | none => rfl
    | some found => by_cases he : found = e <;> simp [he]

end Consistent

/-- Once the header is there, what is read depends on the numbers in it. -/
theorem readParts_eq (hlong : 100 ≤ b.length) (e : Encoding) (mode : LoadMode) :
    ((sections? (header b) b.length).bind fun
      | .error cause => some (.error (.corrupt cause))
      | .ok sections => (sections.mapM (piece? b)).bind (assemble? e mode.backing (header b))) =
    some (Trie.ofImage? e mode b) := by
  rw [sections?_eq, Option.bind_some]
  cases hrules : (header b).corruption? b.length with
  | some cause =>
    unfold header at hrules
    simp only [Trie.ofImage?, List.size_toArray, Header.byteSize, Nat.not_lt.mpr hlong, if_false,
      hrules]
  | none => exact assemble?_eq hlong (Header.corruption?_eq_none_iff.mp hrules) e mode

/-- An image that is shorter than its header. -/
theorem ofImage?_short (hshort : b.length < Header.byteSize) (e : Encoding) (mode : LoadMode) :
    Trie.ofImage? e mode b = .error (.corrupt .shortHeader) := by
  simp only [Trie.ofImage?, List.size_toArray, hshort, if_true]

/-- **A byte string is read within bounds**: the guarded reader always ends with an answer, and the
answer is that of `Trie.ofImage?`. -/
theorem readBytes?_eq (e : Encoding) (b : List UInt8) :
    readBytes? e b = some (Trie.ofImage? e .copy b) := by
  unfold readBytes?
  rw [header?_eq]
  by_cases hshort : b.length < Header.byteSize
  · rw [if_pos hshort, ofImage?_short hshort]
    rfl
  · rw [if_neg hshort]
    exact readParts_eq (Nat.not_lt.mp hshort) e .copy

/-- **A file is read within bounds**, too, whether what is written to its parts goes to the file or
not. -/
theorem readFile?_eq (e : Encoding) (b : List UInt8) {mode : LoadMode} (hmode : mode ≠ .copy) :
    readFile? e b = some (Trie.ofImage? e mode b) := by
  unfold readFile?
  by_cases hshort : b.length < Header.byteSize
  · rw [if_pos hshort, ofImage?_short hshort]
  · have hlong : 100 ≤ b.length := Nat.not_lt.mp hshort
    have hhead : piece? b ⟨0, Header.byteSize⟩ = some (b.take 100) := by
      unfold Header.byteSize
      rw [piece?_eq (s := ⟨0, 100⟩) (by dsimp only; omega) (by decide), slice, List.drop_zero]
    have hbacking : mode.backing = .mapped := by
      cases mode with
      | copy => exact absurd rfl hmode
      | mapped | shared => rfl
    have hparts := readParts_eq hlong e mode
    rw [hbacking] at hparts
    rw [if_neg hshort, hhead, Option.bind_eq_bind, Option.bind_some, header?_eq,
      if_neg (by rw [List.length_take, Nat.min_eq_left hlong]; exact Nat.lt_irrefl _),
      header_take (Nat.le_refl _)]
    exact hparts

end Image

end DoubleArrayTrie
