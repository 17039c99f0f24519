import DoubleArrayTrie.Pool.Growth
import DoubleArrayTrie.Proofs.Pool.WellKept

/-!
# New pools and new blocks

All slots of a new block are free and make up its free list in ascending order. Enlarging the arrays
adds empty records, and a record that is not there reads as an empty one, so nothing that is read
changes.

* `WellKept.empty`: the pool of a trie without keys is well kept.
* `enlarged_grow`: what growth writes.
* `WellKept.addBlock`: so is a pool with one more block in use, whose live slots are the same.
-/

namespace DoubleArrayTrie

theorem Growth.step_le (g : Growth) (n : Nat) : g.step n ≤ n := by
  cases g with
  | doubling => exact le_rfl
  | linear blocks => exact min_le_right ..

namespace Pool

variable {c : Config} {p q : Pool} {b e lo hi : Nat}

/-! ### The free list of a new block -/

theorem slot_foldl_setNode (f g : Nat → Int) (l : List Nat) (hl : ∀ i ∈ l, i < p.capacity)
    (j : Nat) : (l.foldl (fun p i => p.setNode i (f i) (g i)) p).slot j =
      if j ∈ l then { p.slot j with base := f j, check := g j } else p.slot j := by
  induction l generalizing p with
  | nil => simp
  | cons i l ih =>
    have hi : i < p.capacity := hl i (by simp)
    have hslot : (p.setNode i (f i) (g i)).slot =
        Function.update p.slot i { p.slot i with base := f i, check := g i } :=
      slot_modifySlot_of_lt hi _
    rw [List.foldl_cons, ih fun k hk => by simpa [setNode] using hl k (by simp [hk]), hslot]
    by_cases hj : j = i
    · subst hj
      simp
    · simp [hj]

theorem slot_threadFree (hcap : hi < p.capacity) (j : Nat) : (p.threadFree lo hi).slot j =
    if lo ≤ j ∧ j ≤ hi then
      { p.slot j with
        base := -((if j = lo then hi else j - 1 : Nat) : Int)
        check := -((if j = hi then lo else j + 1 : Nat) : Int) }
    else p.slot j := by
  have hmem : j ∈ List.range' lo (hi + 1 - lo) ↔ lo ≤ j ∧ j ≤ hi := by
    rw [List.mem_range'_1]
    omega
  unfold threadFree
  rw [slot_foldl_setNode (fun i => -((if i = lo then hi else i - 1 : Nat) : Int))
    (fun i => -((if i = hi then lo else i + 1 : Nat) : Int))]
  · simp only [hmem]
  · intro i hi'
    rw [List.mem_range'_1] at hi'
    omega

theorem threadFree_eq (p : Pool) (lo hi : Nat) :
    p.threadFree lo hi = { p with slots := (p.threadFree lo hi).slots } := by
  unfold threadFree
  generalize List.range' lo (hi + 1 - lo) = l
  induction l generalizing p with
  | nil => rfl
  | cons i l ih => exact ih _

@[simp] theorem blocks_threadFree (p : Pool) (lo hi : Nat) :
    (p.threadFree lo hi).blocks = p.blocks := by
  rw [threadFree_eq]

@[simp] theorem size_threadFree (p : Pool) (lo hi : Nat) : (p.threadFree lo hi).size = p.size := by
  rw [threadFree_eq]

@[simp] theorem rejects_threadFree (p : Pool) (lo hi : Nat) :
    (p.threadFree lo hi).rejects = p.rejects := by
  rw [threadFree_eq]

@[simp] theorem head_threadFree (p : Pool) (lo hi : Nat) (r : Ring) :
    (p.threadFree lo hi).head r = p.head r := by
  rw [threadFree_eq]
  cases r <;> rfl

@[simp] theorem capacity_threadFree (p : Pool) (lo hi : Nat) :
    (p.threadFree lo hi).capacity = p.capacity := by
  unfold threadFree
  generalize List.range' lo (hi + 1 - lo) = l
  induction l generalizing p with
  | nil => rfl
  | cons i l ih => exact (ih _).trans (capacity_modifySlot ..)

/-- Slots that were made into a free list are linked in ascending order. -/
theorem circular_threadFree (hle : lo ≤ hi) (hcap : hi < p.capacity) :
    Circular (p.threadFree lo hi).FreeLink (List.range' lo (hi + 1 - lo)) := by
  have hslot := @slot_threadFree p lo hi hcap
  have hlink : ∀ x y, lo ≤ x ∧ x ≤ hi → lo ≤ y ∧ y ≤ hi → (if x = hi then lo else x + 1) = y →
      (if y = lo then hi else y - 1) = x → (p.threadFree lo hi).FreeLink x y := by
    intro x y hx hy hxy hyx
    refine ⟨?_, ?_⟩
    · rw [hslot, if_pos hx, hxy]
    · rw [hslot, if_pos hy, hyx]
  have hhead : (List.range' lo (hi + 1 - lo)).head? = some lo := by
    rw [List.head?_range', if_neg (by omega)]
  have hlast : (List.range' lo (hi + 1 - lo)).getLast? = some hi := by
    rw [List.getLast?_range', if_neg (by omega)]
    congr 1
    omega
  unfold Circular
  rw [hhead]
  refine List.isChain_append.mpr ⟨?_, List.isChain_singleton lo, ?_⟩
  · refine (List.isChain_range' lo _ 1).imp_of_mem_imp fun x y hx hy hxy => ?_
    rw [List.mem_range'_1] at hx hy
    refine hlink x y (by omega) (by omega) ?_ ?_
    all_goals
      rw [if_neg (by omega)]
      omega
  · intro x hx y hy
    rw [hlast, Option.mem_some_iff] at hx
    simp only [Option.toList_some, List.head?_cons, Option.mem_def, Option.some.injEq] at hy
    subst hx hy
    exact hlink hi lo ⟨hle, le_rfl⟩ ⟨le_rfl, hle⟩ (if_pos rfl) (if_pos rfl)

/-- The free list of a block whose slots from the first that is not the root were made into one. -/
theorem isFreeList_threadFree (lo hi : Nat) (hlo : 0 < lo) (hle : lo ≤ hi) (hcap : hi < p.capacity)
    (hslots : q.slots = (p.threadFree lo hi).slots) (hlt : hi < q.size)
    (hb : ∀ e, (0 < e ∧ blockOf e = b) ↔ lo ≤ e ∧ e ≤ hi)
    (hfree : (q.block b).free = (hi + 1 - lo : Nat)) (hhead : (q.block b).head = lo) :
    q.IsFreeList b (List.range' lo (hi + 1 - lo)) := by
  have hslot := @slot_threadFree p lo hi hcap
  refine ⟨List.nodup_range', fun e => ?_, ?_, ?_, ?_⟩
  · unfold Free
    rw [slot_congr hslots, hslot]
    have hbe := hb e
    rw [List.mem_range'_1]
    constructor
    · intro he
      obtain ⟨h0, heb⟩ := hbe.mpr ⟨by omega, by omega⟩
      refine ⟨⟨h0, by omega, ?_⟩, heb⟩
      rw [if_pos (by omega)]
      simp only
      split_ifs <;> omega
    · rintro ⟨⟨h0, -, -⟩, heb⟩
      have := hbe.mp ⟨h0, heb⟩
      omega
  · rw [hfree, List.length_range']
  · have := circular_threadFree hle hcap
    unfold FreeLink at this ⊢
    rwa [slot_congr hslots]
  · intro h hh
    rw [List.head?_range', if_neg (by omega), Option.mem_some_iff] at hh
    rw [hhead, hh]

/-! ### The pool of a trie without keys -/

theorem slot_empty (raw : Int) (j : Nat) : (Pool.empty raw).slot j =
    if 1 ≤ j ∧ j ≤ 255 then
      ⟨-((if j = 1 then 255 else j - 1 : Nat) : Int), -((if j = 255 then 1 else j + 1 : Nat) : Int),
        0, 0⟩
    else if j = 0 then ⟨raw, -1, 0, 0⟩ else {} := by
  have hbare : ∀ p : Pool, p.slots = Array.replicate blockSize {} → p.slot = fun _ => {} := by
    intro p hp
    funext i
    unfold slot
    rw [hp, Array.getD_eq_getD_getElem?, Array.getElem?_replicate]
    split_ifs <;> rfl
  unfold Pool.empty setNode
  dsimp only
  rw [slot_threadFree (by simp [capacity, modifySlot, blockSize]),
    slot_modifySlot_of_lt (by simp [capacity, blockSize]), hbare _ rfl, Function.update_apply]
  by_cases h1 : 1 ≤ j ∧ j ≤ 255
  · rw [if_pos h1, if_pos h1, if_neg (by omega)]
  · rw [if_neg h1, if_neg h1]

theorem block_empty (raw : Int) (b : Nat) : (Pool.empty raw).block b =
    if b = 0 then { free := 255, head := 1 } else {} := by
  unfold Pool.empty block
  rw [blocks_threadFree]
  match b with
  | 0 => rfl
  | b + 1 => simp [setNode]

theorem reject_empty (raw : Int) (n : Nat) : (Pool.empty raw).reject n =
    if n ≤ blockSize then (n : Int) + 1 else 0 := by
  have hn : n < rejectCount ↔ n ≤ blockSize := by unfold rejectCount blockSize; omega
  unfold Pool.empty reject
  rw [rejects_threadFree]
  simp [setNode, Array.getD_eq_getD_getElem?, Array.getElem?_ofFn, hn]
  split_ifs <;> rfl

@[simp] theorem size_empty (raw : Int) : (Pool.empty raw).size = blockSize := size_threadFree ..

@[simp] theorem capacity_empty (raw : Int) : (Pool.empty raw).capacity = blockSize := by
  unfold Pool.empty
  dsimp only
  rw [capacity_threadFree]
  simp [setNode, capacity, modifySlot]

/-- Nothing is live in a trie without keys but the root. -/
theorem live_empty (raw : Int) : (Pool.empty raw).live =
    Function.update (fun _ => none) 0 (some ⟨raw, -1, 0, 0⟩) := by
  funext j
  unfold live
  rw [slot_empty, size_empty, Function.update_apply]
  unfold blockSize
  by_cases h1 : 1 ≤ j ∧ j ≤ 255
  · have hneg : -((if j = 255 then 1 else j + 1 : Nat) : Int) < 0 := by split_ifs <;> omega
    rw [if_pos h1, if_neg (by simp only; omega), if_neg (by omega)]
  · rw [if_neg h1]
    by_cases h0 : j = 0
    · subst h0
      rfl
    · rw [if_neg (by omega), if_neg h0]

/-- **The pool of a trie without keys is well kept.** -/
theorem WellKept.empty (hc : c.fault? = none) (raw : Int) : (Pool.empty raw).WellKept c := by
  have hmax : 1 ≤ c.maxTrial := by
    unfold Options.fault? at hc
    split_ifs at hc with hlt
    omega
  have huse : (Pool.empty raw).blocksInUse = 1 := by simp [blocksInUse, blockSize]
  have hblocks : (Pool.empty raw).blocks.size = 1 := by
    unfold Pool.empty
    simp [setNode]
  have hempty : ∀ r, (Pool.empty raw).head r = 0 := by
    intro r
    unfold Pool.empty
    dsimp only
    rw [head_threadFree]
    cases r <;> rfl
  refine ⟨hc, by simp, by simp, by simp, by simp, by simp [hblocks, blockSize],
    by simp [Pool.empty, setNode], ?_, ?_, ?_, ?_, ?_, ?_, ?_, ?_⟩
  · intro n h1 hn
    rw [reject_empty, if_pos hn]
    omega
  · intro b hb
    obtain rfl : b = 0 := by omega
    rw [block_empty, if_pos rfl]
    decide
  · intro b hb
    obtain rfl : b = 0 := by omega
    rw [block_empty, if_pos rfl]
    exact ⟨le_rfl, by simp only; omega⟩
  · refine ⟨fun r => ⟨[], ⟨List.nodup_nil, Circular.nil, hempty r, by simp, by simp⟩, fun b => ?_⟩,
      fun b _ => ?_⟩
    · rw [huse]
      simp only [List.not_mem_nil, false_iff]
      omega
    · rw [block_empty]
      split_ifs <;> exact ⟨rfl, rfl⟩
  · intro b hb
    obtain rfl : b = 0 := by omega
    refine ⟨_, isFreeList_threadFree 1 255 (by decide) (by decide) ?_ rfl
      (by simp [blockSize]) (fun e => ?_) ?_ ?_⟩
    · rw [setNode, capacity_modifySlot]
      simp [capacity, blockSize]
    · unfold blockOf blockSize
      omega
    · rw [block_empty, if_pos rfl]
      rfl
    · rw [block_empty, if_pos rfl]
      rfl
  · intro b hb
    obtain rfl : b = 0 := by omega
    rw [block_empty, if_pos rfl, size_empty]
    decide
  · refine ⟨fun e he => ?_, fun b hb => ?_⟩
    · rw [size_empty] at he
      unfold blockSize at he
      rw [slot_empty, if_neg (by omega), if_neg (by omega)]
    · rw [block_empty, if_neg (by omega)]
  · intro e _
    rw [slot_empty]
    split_ifs <;> exact ⟨rfl, rfl⟩

/-! ### The arrays grow -/

theorem step_growth (hc : c.fault? = none) {n : Nat} (hpos : blockSize ≤ n) (hdvd : blockSize ∣ n) :
    blockSize ≤ c.growth.step n ∧ blockSize ∣ c.growth.step n := by
  cases hg : c.growth with
  | doubling => exact ⟨hpos, hdvd⟩
  | linear blocks =>
    have hblocks : blocks ≠ 0 := by
      rintro rfl
      unfold Options.fault? at hc
      rw [hg] at hc
      split_ifs at hc
      simp at hc
    unfold Growth.step blockSize at *
    simp only
    omega

theorem unmap_eq (p : Pool) (part : Part) :
    ∃ b j, p.unmap part = { p with backing := b, journal := j } := by
  unfold unmap
  split_ifs
  · cases part <;> exact ⟨_, _, rfl⟩
  · exact ⟨_, _, rfl⟩

theorem foldl_unmap_eq (p : Pool) (parts : List Part) :
    ∃ b j, parts.foldl unmap p = { p with backing := b, journal := j } := by
  induction parts generalizing p with
  | nil => exact ⟨_, _, rfl⟩
  | cons part parts ih =>
    obtain ⟨b, j, h⟩ := unmap_eq p part
    obtain ⟨b', j', h'⟩ := ih (p.unmap part)
    exact ⟨b', j', by rw [List.foldl_cons, h', h]⟩

theorem grow_eq (c : Config) (p : Pool) : ∃ b j, p.grow c = { p with
    slots := p.slots ++ Array.replicate (c.growth.step p.capacity) {}
    blocks := p.blocks ++ Array.replicate (c.growth.step p.capacity / blockSize) {}
    backing := b, journal := j } := by
  obtain ⟨b, j, h⟩ := foldl_unmap_eq
    (p.log (.grow p.capacity (p.capacity + c.growth.step p.capacity))) [.nodes, .links, .blocks]
  refine ⟨b, j, ?_⟩
  unfold grow
  dsimp only
  rw [h]
  rfl

@[simp] theorem capacity_grow (c : Config) (p : Pool) :
    (p.grow c).capacity = p.capacity + c.growth.step p.capacity := by
  obtain ⟨b, j, h⟩ := grow_eq c p
  rw [h]
  simp [capacity]

@[simp] theorem size_blocks_grow (c : Config) (p : Pool) :
    (p.grow c).blocks.size = p.blocks.size + c.growth.step p.capacity / blockSize := by
  obtain ⟨b, j, h⟩ := grow_eq c p
  rw [h]
  simp

theorem getElem?_append_replicate {α : Type} (a : Array α) (n : Nat) (d : α) (i : Nat) :
    (a ++ Array.replicate n d)[i]? =
      if i < a.size then a[i]? else if i < a.size + n then some d else none := by
  rw [Array.getElem?_append, Array.getElem?_replicate]
  split_ifs <;> first | rfl | omega

/-- An array that is made longer by records without content reads the same everywhere. -/
theorem getD_append_replicate {α : Type} (a : Array α) (n : Nat) (d : α) (i : Nat) :
    (a ++ Array.replicate n d).getD i d = a.getD i d := by
  rw [Array.getD_eq_getD_getElem?, Array.getD_eq_getD_getElem?, getElem?_append_replicate]
  split_ifs with h1 h2
  · rfl
  · rw [Array.getElem?_eq_none (by omega)]
    rfl
  · rw [Array.getElem?_eq_none (by omega)]

@[simp] theorem slot_grow (c : Config) (p : Pool) : (p.grow c).slot = p.slot := by
  obtain ⟨b, j, h⟩ := grow_eq c p
  funext i
  rw [h]
  exact getD_append_replicate ..

@[simp] theorem block_grow (c : Config) (p : Pool) : (p.grow c).block = p.block := by
  obtain ⟨b, j, h⟩ := grow_eq c p
  funext i
  rw [h]
  exact getD_append_replicate ..

@[simp] theorem size_grow (c : Config) (p : Pool) : (p.grow c).size = p.size := by
  obtain ⟨b, j, h⟩ := grow_eq c p
  rw [h]

@[simp] theorem rejects_grow (c : Config) (p : Pool) : (p.grow c).rejects = p.rejects := by
  obtain ⟨b, j, h⟩ := grow_eq c p
  rw [h]

@[simp] theorem head_grow (c : Config) (p : Pool) (r : Ring) : (p.grow c).head r = p.head r := by
  obtain ⟨b, j, h⟩ := grow_eq c p
  rw [h]
  cases r <;> rfl

/-- What growth comes to: the pool is `q` then. -/
structure Enlarged (c : Config) (p q : Pool) : Prop where
  capacity : q.capacity = p.capacity + c.growth.step p.capacity
  /-- From the old capacity on there are fresh records, and the others are as they were; -/
  slots : ∀ i, q.slots[i]? =
    if i < p.capacity then p.slots[i]? else if i < q.capacity then some {} else none
  /-- so are those of the blocks. -/
  blocks : ∀ b, q.blocks[b]? =
    if b < p.blocks.size then p.blocks[b]? else if b < q.blocks.size then some {} else none
  rejects : q.rejects = p.rejects
  heads : ∀ r, q.head r = p.head r
  size : q.size = p.size

/-- **Growth writes fresh records behind the others**, and nothing else. -/
theorem enlarged_grow (c : Config) (p : Pool) : p.Enlarged c (p.grow c) := by
  refine ⟨capacity_grow c p, fun i => ?_, fun b => ?_, rejects_grow c p, head_grow c p,
    size_grow c p⟩
  · rw [capacity_grow]
    obtain ⟨b, j, h⟩ := grow_eq c p
    rw [h]
    exact getElem?_append_replicate ..
  · rw [size_blocks_grow]
    obtain ⟨_, j, h⟩ := grow_eq c p
    rw [h]
    exact getElem?_append_replicate ..

@[simp] theorem live_grow (c : Config) (p : Pool) : (p.grow c).live = p.live :=
  live_congr (size_grow c p) (slot_grow c p)

theorem WellKept.grow (h : p.WellKept c) : (p.grow c).WellKept c := by
  obtain ⟨hstep, hdvd⟩ := step_growth h.valid (h.size_pos.trans h.size_le) h.capacity_dvd
  have huse : (p.grow c).blocksInUse = p.blocksInUse := by simp [blocksInUse]
  refine ⟨h.valid, by simpa using h.size_pos, by simpa using h.size_dvd, ?_, ?_, ?_,
    by simpa using h.size_rejects, ?_, ?_, ?_, ?_, ?_, ?_, ?_, ?_⟩
  · have := h.size_le
    rw [size_grow, capacity_grow]
    omega
  · rw [capacity_grow]
    exact Nat.dvd_add h.capacity_dvd hdvd
  · have hcap := h.capacity_dvd
    rw [size_blocks_grow, capacity_grow, h.size_blocks]
    unfold blockSize at *
    omega
  · intro n
    unfold Pool.reject
    rw [rejects_grow]
    exact h.bound n
  · rw [huse, block_grow]
    exact h.reject
  · rw [huse, block_grow]
    exact h.trials
  · rw [block_grow]
    exact h.rings.congr (fun _ => head_grow ..) (by simp)
      (fun _ => by rw [block_grow]; exact ⟨rfl, rfl⟩) (size_grow c p) fun _ => rfl
  · intro b hb
    rw [huse] at hb
    obtain ⟨l, hl⟩ := h.freeLists b hb
    refine ⟨l, hl.congr (fun e _ => ?_) (fun _ _ => ?_) ?_ fun _ => ?_⟩
    · rw [free_iff_live, free_iff_live, live_grow, size_grow]
    · rw [slot_grow]
      exact ⟨rfl, rfl⟩
    · rw [block_grow]
    · rw [block_grow]
  · rw [huse, block_grow, size_grow]
    exact h.heads
  · exact h.unused.congr (size_grow c p) (fun _ _ => by rw [slot_grow]) fun _ _ => by rw [block_grow]
  · rw [live_grow, slot_grow]
    exact h.clear

/-! ### A block is put into use -/

@[simp] theorem size_threadBlock (p : Pool) : p.threadBlock.size = p.size := size_threadFree ..

@[simp] theorem capacity_threadBlock (p : Pool) : p.threadBlock.capacity = p.capacity :=
  (capacity_threadFree ..).trans (capacity_modifyBlock ..)

@[simp] theorem rejects_threadBlock (p : Pool) : p.threadBlock.rejects = p.rejects :=
  rejects_threadFree ..

@[simp] theorem head_threadBlock (p : Pool) (r : Ring) : p.threadBlock.head r = p.head r :=
  (head_threadFree ..).trans (head_modifyBlock ..)

@[simp] theorem size_blocks_threadBlock (p : Pool) : p.threadBlock.blocks.size = p.blocks.size := by
  unfold threadBlock
  simp

theorem block_threadBlock (hb : p.blocksInUse < p.blocks.size) (d : Nat) : p.threadBlock.block d =
    if d = p.blocksInUse then { head := p.size } else p.block d := by
  unfold threadBlock
  dsimp only
  rw [block_congr (blocks_threadFree ..), block_modifyBlock]
  by_cases hd : d = p.blocksInUse
  · subst hd
    rw [if_pos ⟨rfl, hb⟩, if_pos rfl]
  · rw [if_neg fun h => hd h.1.symm, if_neg hd]

@[simp] theorem size_openBlock (p : Pool) : p.openBlock.size = p.size + blockSize := by
  show (Pool.attach ..).size + blockSize = _
  simp

@[simp] theorem blocksInUse_openBlock (p : Pool) :
    p.openBlock.blocksInUse = p.blocksInUse + 1 := by
  simp [blocksInUse, blockSize]

@[simp] theorem size_blocks_openBlock (p : Pool) : p.openBlock.blocks.size = p.blocks.size := by
  show (Pool.attach ..).blocks.size = _
  simp

@[simp] theorem rejects_openBlock (p : Pool) : p.openBlock.rejects = p.rejects := by
  show (Pool.attach ..).rejects = _
  simp

theorem slots_openBlock (p : Pool) : p.openBlock.slots = p.threadBlock.slots := slots_attach ..

@[simp] theorem capacity_openBlock (p : Pool) : p.openBlock.capacity = p.capacity := by
  unfold capacity
  rw [slots_openBlock]
  exact capacity_threadBlock p

theorem account_openBlock (hb : p.blocksInUse < p.blocks.size) (d : Nat) :
    (p.openBlock.block d).account =
      if d = p.blocksInUse then (256, 257, 0, (p.size : Int)) else (p.block d).account := by
  show ((Pool.attach ..).block d).account = _
  rw [account_attach, block_threadBlock hb]
  split_ifs <;> rfl

section

variable (h : p.WellKept c) (hlt : p.size < p.capacity)
include h hlt

theorem WellKept.blocksInUse_lt : p.blocksInUse < p.blocks.size := by
  have hdvd := h.size_dvd
  have hcap := h.capacity_dvd
  rw [h.size_blocks]
  unfold blocksInUse blockSize at *
  omega

theorem WellKept.slot_openBlock (j : Nat) : p.openBlock.slot j =
    if p.size ≤ j ∧ j ≤ p.size + 255 then
      { p.slot j with
        base := -((if j = p.size then p.size + 255 else j - 1 : Nat) : Int)
        check := -((if j = p.size + 255 then p.size else j + 1 : Nat) : Int) }
    else p.slot j := by
  have hdvd := h.size_dvd
  have hcap := h.capacity_dvd
  unfold blockSize at hdvd hcap
  rw [slot_congr (slots_openBlock p)]
  unfold threadBlock
  dsimp only
  rw [slot_threadFree (by rw [capacity_modifyBlock]; unfold blockSize; omega), slot_modifyBlock]
  rfl

/-- No slot of a new block is live. -/
theorem WellKept.live_openBlock : p.openBlock.live = p.live := by
  have hpos := h.size_pos
  unfold blockSize at hpos
  funext j
  have hslot := h.slot_openBlock hlt j
  have hsize : p.openBlock.size = p.size + 256 := size_openBlock p
  by_cases hj : p.size ≤ j ∧ j ≤ p.size + 255
  · rw [if_pos hj] at hslot
    have hneg : (p.openBlock.slot j).check < 0 := by
      rw [hslot]
      simp only
      split_ifs <;> omega
    rw [live_eq_none_iff.mpr (.inl hj.1), live_eq_none_iff]
    exact .inr ⟨by omega, by omega, hneg⟩
  · rw [if_neg hj] at hslot
    unfold live
    rw [hslot, hsize]
    by_cases hin : j < p.size
    · simp only [hin, show j < p.size + 256 by omega]
    · rw [if_neg (by omega), if_neg (by omega)]

/-- A new block is on the open ring, and the other blocks stay where they are. -/
theorem WellKept.rings_openBlock :
    p.openBlock.Rings fun b => (p.openBlock.block b).ring c.maxTrial := by
  have hpos := h.size_pos
  have hmax := h.maxTrial_pos
  have hb := h.blocksInUse_lt hlt
  have hnew : 0 < p.blocksInUse := Nat.div_pos hpos (by decide)
  have hacc := account_openBlock hb
  have hring : ∀ d, (p.openBlock.block d).ring c.maxTrial =
      if d = p.blocksInUse then .opened else (p.block d).ring c.maxTrial := by
    intro d
    have haccd := hacc d
    split_ifs at haccd ⊢ with hd
    · simp only [Block.account, Prod.mk.injEq] at haccd
      unfold Block.ring
      rw [haccd.1, haccd.2.2.1, if_neg (by omega), if_neg (by omega)]
    · exact Block.ring_account haccd
  have hrings : p.threadBlock.RingsOn fun r d =>
      0 < d ∧ d < p.blocksInUse ∧ (p.block d).ring c.maxTrial = r := by
    refine h.rings.on.congr (fun _ => head_threadBlock ..) (size_blocks_threadBlock p).ge
      (fun _ d hd => ?_) fun _ _ => Iff.rfl
    rw [block_threadBlock hb, if_neg (by omega)]
    exact ⟨rfl, rfl⟩
  refine ⟨?_, fun d hd => ?_⟩
  · have hjoined := hrings.attach (s := .opened) (b := p.blocksInUse)
      (fun u d hu hd => hu.2.2.symm.trans hd.2.2) (fun _ hu => by omega) hnew (by simpa using hb)
    refine hjoined.congr (fun r => by cases r <;> rfl) le_rfl (fun _ _ _ => ⟨rfl, rfl⟩) fun r d => ?_
    simp only [blocksInUse_openBlock, hring]
    by_cases hd : d = p.blocksInUse
    · subst hd
      simp only [if_true, lt_irrefl, false_and, and_false, false_or, and_true]
      constructor
      · rintro ⟨-, -, rfl⟩; rfl
      · rintro rfl; exact ⟨hnew, by omega, rfl⟩
    · simp only [hd, if_false, and_false, or_false]
      refine and_congr_right fun _ => and_congr_left fun _ => ?_
      omega
  · rw [blocksInUse_openBlock] at hd
    have hattach := hrings.links_attach (s := .opened) (b := p.blocksInUse) (d := d)
      (by simpa using hb) (by omega) (by omega)
    rw [block_threadBlock hb, if_neg (by omega), (h.rings.off d (by omega)).1,
      (h.rings.off d (by omega)).2] at hattach
    exact hattach

/-- All slots of a new block are on its free list, and the other blocks have the ones they had. -/
theorem WellKept.freeLists_openBlock : p.openBlock.FreeLists := by
  have hpos := h.size_pos
  have hdvd := h.size_dvd
  have hcapdvd := h.capacity_dvd
  have huse : p.blocksInUse = p.size / 256 := rfl
  have hb := h.blocksInUse_lt hlt
  have hacc := account_openBlock hb
  have hlive := h.live_openBlock hlt
  have hslot := h.slot_openBlock hlt
  intro d hd
  rw [blocksInUse_openBlock] at hd
  have haccd := hacc d
  by_cases hdb : d = p.blocksInUse
  · subst hdb
    rw [if_pos rfl] at haccd
    simp only [Block.account, Prod.mk.injEq] at haccd
    refine ⟨_, isFreeList_threadFree (p := p.modifyBlock p.blocksInUse fun _ => { head := p.size })
      p.size (p.size + 255) ?_ (by omega) ?_ (slots_openBlock p) ?_ (fun e => ?_) ?_
      haccd.2.2.2⟩
    · unfold blockSize at *; omega
    · rw [capacity_modifyBlock]; unfold blockSize at *; omega
    · rw [size_openBlock]; unfold blockSize; omega
    · unfold blockOf blockSize at *; omega
    · rw [haccd.1]; omega
  · rw [if_neg hdb, Block.account_eq_iff] at haccd
    obtain ⟨l, hl⟩ := h.freeLists d (by omega)
    refine ⟨l, hl.congr (fun e he => ?_) (fun e he => ?_) haccd.1 fun _ => haccd.2.2.2⟩
    · rw [free_iff_live, free_iff_live, hlive, size_openBlock]
      refine and_congr_left fun _ => ?_
      unfold blockOf blockSize at *
      omega
    · have hein := (hl.free he).2.1
      rw [hslot, if_neg (by omega)]
      exact ⟨rfl, rfl⟩

/-- The counters stay in range. -/
theorem WellKept.counters_openBlock {d : Nat} (hd : d < p.openBlock.blocksInUse) :
    (2 ≤ (p.openBlock.block d).reject ∧ (p.openBlock.block d).reject ≤ 257) ∧
      (0 ≤ (p.openBlock.block d).trials ∧ (p.openBlock.block d).trials ≤ c.maxTrial) ∧
      (0 ≤ (p.openBlock.block d).head ∧ (p.openBlock.block d).head < p.openBlock.size) := by
  have hmax := h.maxTrial_pos
  have haccd := account_openBlock (h.blocksInUse_lt hlt) d
  rw [blocksInUse_openBlock] at hd
  rw [size_openBlock]
  split_ifs at haccd with hdb
  · simp only [Block.account, Prod.mk.injEq] at haccd
    obtain ⟨-, hreject, htrials, hhead⟩ := haccd
    rw [hreject, htrials, hhead]
    unfold blockSize
    omega
  · obtain ⟨-, hreject, htrials, hhead⟩ := Block.account_eq_iff.mp haccd
    have hold := h.heads d (by omega)
    rw [hreject, htrials, hhead]
    exact ⟨h.reject d (by omega), h.trials d (by omega), hold.1, by omega⟩

/-- **A new block is on the open ring**, and all its slots are free. -/
theorem WellKept.openBlock : p.openBlock.WellKept c where
  valid := h.valid
  size_pos := by
    rw [size_openBlock]
    exact h.size_pos.trans (Nat.le_add_right ..)
  size_dvd := by
    rw [size_openBlock]
    exact Nat.dvd_add h.size_dvd (Nat.dvd_refl _)
  size_le := by
    have hdvd := h.size_dvd
    have hcapdvd := h.capacity_dvd
    rw [size_openBlock, capacity_openBlock]
    unfold blockSize at *
    omega
  capacity_dvd := by
    rw [capacity_openBlock]
    exact h.capacity_dvd
  size_blocks := by
    rw [size_blocks_openBlock, capacity_openBlock]
    exact h.size_blocks
  size_rejects := by
    rw [rejects_openBlock]
    exact h.size_rejects
  bound n := by
    unfold Pool.reject
    rw [rejects_openBlock]
    exact h.bound n
  reject d hd := (h.counters_openBlock hlt hd).1
  trials d hd := (h.counters_openBlock hlt hd).2.1
  rings := h.rings_openBlock hlt
  freeLists := h.freeLists_openBlock hlt
  heads d hd := (h.counters_openBlock hlt hd).2.2
  unused := by
    refine ⟨fun e he => ?_, fun d hd => ?_⟩
    · rw [size_openBlock] at he
      unfold blockSize at he
      rw [h.slot_openBlock hlt, if_neg (by omega)]
      exact h.unused.slot e (by omega)
    · rw [blocksInUse_openBlock] at hd
      rw [account_openBlock (h.blocksInUse_lt hlt), if_neg (by omega)]
      exact h.unused.account d (by omega)
  clear e he := by
    rw [h.live_openBlock hlt] at he
    have hclear := h.clear e he
    rw [h.slot_openBlock hlt]
    split_ifs <;> exact hclear

end

/-- Before one more block comes into use there is capacity for it: the arrays grow if they have to, and
hold what they held. -/
theorem WellKept.exists_openBlock (h : p.WellKept c) : ∃ q : Pool, q.WellKept c ∧ q.slot = p.slot ∧
    q.block = p.block ∧ q.size = p.size ∧ q.size < q.capacity ∧ (p.addBlock c).1 = q.openBlock := by
  unfold Pool.addBlock
  dsimp only
  split_ifs with hfull
  · have hstep := (step_growth h.valid (h.size_pos.trans h.size_le) h.capacity_dvd).1
    refine ⟨p.grow c, h.grow, slot_grow c p, block_grow c p, size_grow c p, ?_, rfl⟩
    rw [size_grow, capacity_grow]
    unfold blockSize at hstep
    omega
  · exact ⟨p, h, rfl, rfl, rfl, h.size_le.lt_of_ne hfull, rfl⟩

/-- **A pool with one more block in use is well kept**: its live slots are the same, and the slots of
the new block are free. -/
theorem WellKept.addBlock (h : p.WellKept c) : (p.addBlock c).1.WellKept c ∧
    (p.addBlock c).1.live = p.live ∧ (p.addBlock c).2 = p.size ∧
    ∀ e, p.size ≤ e → e < p.size + blockSize → (p.addBlock c).1.Free e := by
  obtain ⟨q, hq, hslot, -, hsize, hlt, heq⟩ := h.exists_openBlock
  rw [heq, hq.live_openBlock hlt, live_congr hsize hslot]
  refine ⟨hq.openBlock hlt, rfl, rfl, fun e hle hin => ?_⟩
  rw [free_iff_live, hq.live_openBlock hlt, live_eq_none_iff, size_openBlock, hsize]
  exact ⟨hin, .inl hle⟩

/-- The slots that were in use or free before stay as they are. -/
theorem WellKept.slot_addBlock (h : p.WellKept c) {i : Nat} (hi : i < p.size) :
    (p.addBlock c).1.slot i = p.slot i := by
  obtain ⟨q, hq, hslot, -, hsize, hlt, heq⟩ := h.exists_openBlock
  rw [heq, hq.slot_openBlock hlt, if_neg (by omega), hslot]

/-- So does what is kept about the blocks, but for the new one. -/
theorem WellKept.account_addBlock (h : p.WellKept c) (d : Nat) :
    ((p.addBlock c).1.block d).account =
      if d = p.blocksInUse then (256, 257, 0, (p.size : Int)) else (p.block d).account := by
  obtain ⟨q, hq, -, hblock, hsize, hlt, heq⟩ := h.exists_openBlock
  have huse : q.blocksInUse = p.blocksInUse := congrArg (· / blockSize) hsize
  rw [heq, account_openBlock (hq.blocksInUse_lt hlt), hblock, hsize, huse]

end Pool

end DoubleArrayTrie
