import Mathlib.Data.List.Perm.Subperm
import DoubleArrayTrie.Proofs.Pool.WellKept

/-!
# Giving a slot back

A slot that is given back joins the free list of its block, and the block becomes worth a search
again: it opens if it has a second free slot, its trials start over, and its bound goes up as far as
the table of bounds allows.

* `WellKept.release`: giving a slot back keeps the invariant, and makes the slot free.
-/

namespace DoubleArrayTrie

namespace Pool

variable {c : Config} {p q : Pool} {b e : Nat} {l : List Nat}

/-! ### The slot joins the free list of its block -/

theorem slots_linkFree (p : Pool) (e : Nat) : (p.linkFree e).slots =
    (if (p.block (blockOf e)).free = 0 then p.setNode e (-(e : Int)) (-(e : Int))
      else p.spliceFree e (p.block (blockOf e)).head.toNat).slots := by
  unfold linkFree
  dsimp only
  split_ifs <;> rfl

theorem block_linkFree (hb : blockOf e < p.blocks.size) (d : Nat) : (p.linkFree e).block d =
    if d = blockOf e then
      { p.block d with
        free := (p.block d).free + 1
        head := if (p.block d).free = 0 then (e : Int) else (p.block d).head }
    else p.block d := by
  have hsplice : ∀ (q : Pool) (h : Nat), (q.spliceFree e h).block d = q.block d := fun _ _ => rfl
  unfold linkFree setNode
  dsimp only
  by_cases hzero : (p.block (blockOf e)).free = 0
  · rw [if_pos hzero, block_modifySlot, block_modifyBlock]
    by_cases hd : d = blockOf e
    · subst hd
      simp [hzero, hb]
    · simp [hd, Ne.symm hd]
  · rw [if_neg hzero, hsplice, block_modifyBlock]
    by_cases hd : d = blockOf e
    · subst hd
      simp [hzero, hb]
    · simp [hd, Ne.symm hd]

@[simp] theorem size_blocks_linkFree (p : Pool) (e : Nat) :
    (p.linkFree e).blocks.size = p.blocks.size := by
  unfold linkFree spliceFree setNode setCheck setBase
  dsimp only
  split_ifs <;> simp

@[simp] theorem size_linkFree (p : Pool) (e : Nat) : (p.linkFree e).size = p.size := by
  unfold linkFree spliceFree setNode setCheck setBase
  dsimp only
  split_ifs <;> simp

@[simp] theorem rejects_linkFree (p : Pool) (e : Nat) : (p.linkFree e).rejects = p.rejects := by
  unfold linkFree spliceFree setNode setCheck setBase
  dsimp only
  split_ifs <;> simp

@[simp] theorem head_linkFree (p : Pool) (e : Nat) (r : Ring) :
    (p.linkFree e).head r = p.head r := by
  unfold linkFree spliceFree setNode setCheck setBase
  dsimp only
  split_ifs <;> simp

@[simp] theorem capacity_linkFree (p : Pool) (e : Nat) : (p.linkFree e).capacity = p.capacity := by
  unfold linkFree spliceFree setNode setCheck setBase
  dsimp only
  split_ifs <;> simp

/-- Linking a slot in puts it out of use, and no other slot. -/
theorem IsFreeList.live_spliceFree (h : p.IsFreeList b l) {a : Nat} (ha : a ∈ l) (hpos : 0 < e)
    (hlt : e < p.size) (hnot : ¬ p.Free e) (hcap : p.size ≤ p.capacity) :
    (p.spliceFree e a).live = Function.update p.live e none := by
  have hcaplt : ∀ x ∈ l, x < p.capacity := fun x hx => by
    have := (h.free hx).2.1
    omega
  have hae : a ≠ e := fun hae => hnot (hae ▸ h.free ha)
  have hnext := h.nextFree_mem ha
  have hne : p.nextFree a ≠ e := fun hne => hnot (hne ▸ h.free hnext)
  have hcheck := check_spliceFree (show e < p.capacity by omega) (hcaplt a ha) hae (hcaplt _ hnext)
  have hnextpos := (h.free hnext).1
  have hsize : (p.spliceFree e a).size = p.size := rfl
  funext j
  rw [Function.update_apply]
  by_cases hje : j = e
  · subst hje
    rw [if_pos rfl, live_eq_none_iff]
    unfold Free
    rw [hcheck, if_neg (Ne.symm hae), if_pos rfl, hsize]
    omega
  rw [if_neg hje]
  have hsome : ∀ j, p.Free j → p.live j = none := fun j hj => (free_iff_live.mp hj).2
  by_cases hja : j = a
  · have hfree := h.free ha
    rw [hsome j (hja ▸ hfree), live_eq_none_iff]
    unfold Free at hfree ⊢
    rw [hcheck, if_pos hja, hsize]
    omega
  by_cases hjn : j = p.nextFree a
  · have hfree := h.free hnext
    rw [hsome j (hjn ▸ hfree), live_eq_none_iff]
    unfold Free at hfree ⊢
    rw [hcheck, if_neg hja, if_neg hje, hsize, hjn]
    exact .inr hfree
  · unfold live
    rw [slot_spliceFree p e a hje hja hjn, hsize]

/-! ### The block changes its ring -/

/-- What is known of a block after one of its slots was given back. -/
theorem account_insertFree (c : Config) (hb : blockOf e < p.blocks.size) (d : Nat) :
    ((p.insertFree c e).block d).account =
      if d = blockOf e then
        ((p.block d).free + 1, (p.block d).reject,
          if (p.block d).free = 0 then (p.block d).trials else 0,
          if (p.block d).free = 0 then (e : Int) else (p.block d).head)
      else (p.block d).account := by
  have hblock := block_linkFree hb
  have hfree : ((p.linkFree e).block (blockOf e)).free = (p.block (blockOf e)).free + 1 := by
    rw [hblock, if_pos rfl]
  have hreset : ∀ q : Pool, q.blocks.size = p.blocks.size →
      (q.block d).account = ((p.linkFree e).block d).account →
      ((q.modifyBlock (blockOf e) fun r => { r with trials := 0 }).block d).account =
        if d = blockOf e then { (p.linkFree e).block d with trials := 0 }.account
        else ((p.linkFree e).block d).account := by
    intro q hq hacc
    rw [block_modifyBlock, hq]
    by_cases hd : d = blockOf e
    · subst hd
      obtain ⟨h1, h2, -, h4⟩ := Block.account_eq_iff.mp hacc
      rw [if_pos ⟨rfl, hb⟩, if_pos rfl, Block.account_eq_iff]
      exact ⟨h1, h2, rfl, h4⟩
    · rw [if_neg fun h => hd h.1.symm, if_neg hd, hacc]
  unfold insertFree
  dsimp only
  by_cases hone : ((p.linkFree e).block (blockOf e)).free = 1
  · have hkeep : ∀ q : Pool, (q.block d).account = ((p.linkFree e).block d).account →
        (q.block d).account = if d = blockOf e then
          ((p.block d).free + 1, (p.block d).reject,
            if (p.block d).free = 0 then (p.block d).trials else 0,
            if (p.block d).free = 0 then (e : Int) else (p.block d).head)
          else (p.block d).account := by
      intro q hq
      rw [hq, hblock]
      by_cases hd : d = blockOf e
      · subst hd
        have hzero : (p.block (blockOf e)).free = 0 := by omega
        simp [Block.account, hzero]
      · simp [hd]
    rw [if_pos hone]
    refine hkeep _ ?_
    split_ifs <;> simp
  · rw [if_neg hone, hreset _ (by split_ifs <;> simp) (by split_ifs <;> simp), hblock]
    by_cases hd : d = blockOf e
    · subst hd
      have hzero : (p.block (blockOf e)).free ≠ 0 := by omega
      simp [Block.account, hzero]
    · simp [hd]

@[simp] theorem slots_insertFree (c : Config) (p : Pool) (e : Nat) :
    (p.insertFree c e).slots = (p.linkFree e).slots := by
  unfold insertFree
  dsimp only
  split_ifs <;> simp

@[simp] theorem size_blocks_insertFree (c : Config) (p : Pool) (e : Nat) :
    (p.insertFree c e).blocks.size = p.blocks.size := by
  unfold insertFree
  dsimp only
  split_ifs <;> simp

@[simp] theorem size_insertFree (c : Config) (p : Pool) (e : Nat) :
    (p.insertFree c e).size = p.size := by
  unfold insertFree
  dsimp only
  split_ifs <;> simp

@[simp] theorem rejects_insertFree (c : Config) (p : Pool) (e : Nat) :
    (p.insertFree c e).rejects = p.rejects := by
  unfold insertFree
  dsimp only
  split_ifs <;> simp

@[simp] theorem capacity_insertFree (c : Config) (p : Pool) (e : Nat) :
    (p.insertFree c e).capacity = p.capacity := by
  unfold capacity
  rw [slots_insertFree]
  exact capacity_linkFree p e

/-- The links do not change before the block moves. -/
theorem WellKept.rings_linkFree (h : p.WellKept c) (hlt : e < p.size) :
    (p.linkFree e).Rings fun b => (p.block b).ring c.maxTrial := by
  have hblock := block_linkFree (p := p) (h.lt_size_blocks (h.blockOf_lt.mpr hlt))
  refine h.rings.congr (fun _ => head_linkFree ..) (size_blocks_linkFree ..).ge
    (fun d => ?_) (by simp) fun _ => rfl
  rw [hblock]
  split_ifs <;> exact ⟨rfl, rfl⟩

/-- The ring that a block leaves when it gets a slot back is the one it is on, and the one it comes to
is the one it belongs on then. Its trials start over if it had a free slot before. -/
theorem WellKept.insertFree_cases (h : p.WellKept c) (hlt : e < p.size) : ∃ u,
    (p.insertFree c e = u ∨
      p.insertFree c e = u.modifyBlock (blockOf e) fun r => { r with trials := 0 }) ∧
    (u = p.linkFree e ∧ (blockOf e = 0 ∨ ((p.insertFree c e).block (blockOf e)).ring c.maxTrial =
        (p.block (blockOf e)).ring c.maxTrial) ∨
      ∃ r s, r ≠ s ∧ 0 < blockOf e ∧ (p.block (blockOf e)).ring c.maxTrial = r ∧
        ((p.insertFree c e).block (blockOf e)).ring c.maxTrial = s ∧
        u = (p.linkFree e).moveBlock (blockOf e) r s) := by
  have hbuse := h.blockOf_lt.mpr hlt
  have hb := h.lt_size_blocks hbuse
  have hnonneg := h.free_nonneg hbuse
  have hmax := h.maxTrial_pos
  have hself := account_insertFree (p := p) c hb (blockOf e)
  rw [if_pos rfl, Block.account] at hself
  simp only [Prod.mk.injEq] at hself
  have hblock := block_linkFree (p := p) hb (blockOf e)
  rw [if_pos rfl] at hblock
  have hfree : ((p.linkFree e).block (blockOf e)).free = (p.block (blockOf e)).free + 1 := by
    rw [hblock]
  have htrials : ((p.linkFree e).block (blockOf e)).trials = (p.block (blockOf e)).trials := by
    rw [hblock]
  by_cases hzero : (p.block (blockOf e)).free = 0
  · have hclosed : ((p.insertFree c e).block (blockOf e)).ring c.maxTrial = .closed := by
      unfold Block.ring
      rw [hself.1, if_neg (by omega), if_pos (.inl (by omega))]
    have heq : p.insertFree c e = if blockOf e = 0 then p.linkFree e
        else (p.linkFree e).moveBlock (blockOf e) .full .closed := by
      unfold insertFree
      dsimp only
      rw [if_pos (by omega)]
    split_ifs at heq with h0
    · exact ⟨_, .inl heq, .inl ⟨rfl, .inl h0⟩⟩
    · exact ⟨_, .inl heq, .inr ⟨.full, .closed, by decide, by omega, if_pos hzero, hclosed, rfl⟩⟩
  · -- with a second free slot and its trials at `0` the block is open
    have hopen : ((p.insertFree c e).block (blockOf e)).ring c.maxTrial = .opened := by
      rw [Block.ring_eq_opened, hself.1, hself.2.2.1, if_neg hzero]
      omega
    have heq : p.insertFree c e = (if blockOf e ≠ 0 ∧ ((p.block (blockOf e)).free + 1 = 2 ∨
        (p.block (blockOf e)).trials = c.maxTrial) then
          (p.linkFree e).moveBlock (blockOf e) .closed .opened else p.linkFree e).modifyBlock
            (blockOf e) fun r => { r with trials := 0 } := by
      unfold insertFree
      dsimp only
      rw [if_neg (by omega), hfree, htrials]
    split_ifs at heq with hclosed
    · refine ⟨_, .inr heq, .inr ⟨.closed, .opened, by decide, by omega, ?_, hopen, rfl⟩⟩
      unfold Block.ring
      rw [if_neg hzero, if_pos (by omega)]
    · refine ⟨_, .inr heq, .inl ⟨rfl, ?_⟩⟩
      by_cases h0 : blockOf e = 0
      · exact .inl h0
      · exact .inr (hopen.trans (Block.ring_eq_opened.mpr (by omega)).symm)

/-- **The blocks are on the rings that they belong on** after a slot was given back. -/
theorem WellKept.rings_insertFree (h : p.WellKept c) (hlt : e < p.size) :
    (p.insertFree c e).Rings fun b => ((p.insertFree c e).block b).ring c.maxTrial := by
  have hbuse := h.blockOf_lt.mpr hlt
  have hacc := account_insertFree (p := p) c (h.lt_size_blocks hbuse)
  have hrings := h.rings_linkFree hlt
  have hother : ∀ d, d ≠ blockOf e →
      ((p.insertFree c e).block d).ring c.maxTrial = (p.block d).ring c.maxTrial := by
    intro d hd
    have hd' := hacc d
    rw [if_neg hd] at hd'
    exact Block.ring_account hd'
  obtain ⟨u, hu, hcases⟩ := h.insertFree_cases (c := c) hlt
  have hrings' : u.Rings fun b => ((p.insertFree c e).block b).ring c.maxTrial := by
    obtain ⟨rfl, hstay⟩ | ⟨r, s, hrs, hpos, hr, hs, rfl⟩ := hcases
    · exact hrings.stay hstay hother
    · exact hrings.moveBlock hpos (by simpa [blocksInUse] using hbuse) hr hrs hs hother
  rcases hu with heq | heq
  · rwa [← heq] at hrings'
  · conv => arg 1; rw [heq]
    refine hrings'.congr (fun _ => head_modifyBlock ..) (size_blocks_modifyBlock ..).ge
      (fun d => ?_) rfl fun _ => rfl
    rw [block_modifyBlock]
    split_ifs <;> exact ⟨rfl, rfl⟩

/-! ### A slot is given back -/

theorem block_relaxReject (p : Pool) (b d : Nat) : (p.relaxReject b).block d =
    if d = b ∧ d < p.blocks.size ∧ (p.block d).reject < p.reject (p.block d).free.toNat then
      { p.block d with reject := p.reject (p.block d).free.toNat }
    else p.block d := by
  unfold relaxReject
  dsimp only
  by_cases hd : d = b
  · subst hd
    by_cases hlt : (p.block d).reject < p.reject (p.block d).free.toNat
    · rw [if_pos hlt, block_modifyBlock]
      simp [hlt]
    · rw [if_neg hlt, if_neg (by tauto)]
  · rw [if_neg (show ¬ (d = b ∧ _) from fun h => hd h.1)]
    split_ifs
    · rw [block_modifyBlock, if_neg fun h => hd h.1.symm]
    · rfl

@[simp] theorem slots_relaxReject (p : Pool) (b : Nat) : (p.relaxReject b).slots = p.slots := by
  unfold relaxReject
  dsimp only
  split_ifs <;> rfl

@[simp] theorem size_relaxReject (p : Pool) (b : Nat) : (p.relaxReject b).size = p.size := by
  unfold relaxReject
  dsimp only
  split_ifs <;> rfl

@[simp] theorem size_blocks_relaxReject (p : Pool) (b : Nat) :
    (p.relaxReject b).blocks.size = p.blocks.size := by
  unfold relaxReject
  dsimp only
  split_ifs <;> simp

@[simp] theorem rejects_relaxReject (p : Pool) (b : Nat) :
    (p.relaxReject b).rejects = p.rejects := by
  unfold relaxReject
  dsimp only
  split_ifs <;> rfl

@[simp] theorem head_relaxReject (p : Pool) (b : Nat) (r : Ring) :
    (p.relaxReject b).head r = p.head r := by
  unfold relaxReject
  dsimp only
  split_ifs <;> simp

@[simp] theorem size_release (c : Config) (p : Pool) (e : Nat) :
    (p.release c e).size = p.size := by
  simp [release]

@[simp] theorem rejects_release (c : Config) (p : Pool) (e : Nat) :
    (p.release c e).rejects = p.rejects := by
  simp [release]

@[simp] theorem capacity_release (c : Config) (p : Pool) (e : Nat) :
    (p.release c e).capacity = p.capacity := by
  unfold release
  rw [capacity_modifySlot, ← capacity_insertFree c p e]
  exact congrArg Array.size (slots_relaxReject _ _)

theorem block_release_eq (c : Config) (p : Pool) (e b : Nat) :
    (p.release c e).block b = ((p.insertFree c e).relaxReject (blockOf e)).block b :=
  block_modifySlot ..

theorem slot_release (hcap : e < p.capacity) (j : Nat) : (p.release c e).slot j =
    if j = e then { (p.linkFree e).slot j with sibling := 0, child := 0 }
    else (p.linkFree e).slot j := by
  have hslot : ((p.insertFree c e).relaxReject (blockOf e)).slot = (p.linkFree e).slot :=
    slot_congr (by simp)
  have hcap' : ((p.insertFree c e).relaxReject (blockOf e)).capacity = p.capacity := by
    rw [← capacity_insertFree c p e]
    exact congrArg Array.size (slots_relaxReject _ _)
  unfold release
  rw [slot_modifySlot_of_lt (by rwa [hcap']), hslot, Function.update_apply]
  split_ifs with hj
  · rw [hj]
  · rfl

/-- A slot that is given back is no longer live. -/
theorem WellKept.live_release {s : Slot} (h : p.WellKept c) (he : p.live e = some s) (h0 : e ≠ 0) :
    (p.release c e).live = Function.update p.live e none := by
  have hlt := lt_size_of_live he
  have hcap := lt_of_lt_of_le hlt h.size_le
  obtain ⟨l, hl⟩ := h.freeLists (blockOf e) (h.blockOf_lt.mpr hlt)
  have hlink : (p.linkFree e).live = Function.update p.live e none := by
    have hslots := slots_linkFree p e
    split_ifs at hslots with hzero
    · rw [live_congr (p := p.setNode e (-(e : Int)) (-(e : Int))) (size_linkFree p e)
        (slot_congr hslots)]
      exact live_modifySlot_of_neg hcap h0 _ (by show -(e : Int) < 0; omega)
    · rw [live_congr (p := p.spliceFree e _) (size_linkFree p e) (slot_congr hslots)]
      exact hl.live_spliceFree (hl.exists_head hzero).1 (by omega) hlt (not_free_of_live he) h.size_le
  funext j
  have hcheck : ((p.release c e).slot j).check = ((p.linkFree e).slot j).check := by
    rw [slot_release hcap]
    split_ifs <;> rfl
  rw [← hlink]
  unfold live
  rw [size_release, size_linkFree, hcheck, slot_release hcap]
  split_ifs with hlive hje
  · have hnone := congrFun hlink e
    rw [hje] at hlive
    rw [Function.update_self, live, if_pos (by rwa [size_linkFree])] at hnone
    simp at hnone
  · rfl
  · rfl

theorem IsFreeList.length_le (h : p.IsFreeList b l) : l.length ≤ blockSize := by
  have hsub : l ⊆ List.range' (b * blockSize) blockSize := by
    intro e he
    have hb := ((h.mem_iff e).mp he).2
    unfold blockOf blockSize at hb
    rw [List.mem_range'_1]
    unfold blockSize
    omega
  have hlen := (List.subperm_of_subset h.nodup hsub).length_le
  rwa [List.length_range'] at hlen

/-- The slots of other blocks do not notice. -/
theorem WellKept.slot_release_of_ne {s : Slot} (h : p.WellKept c) (he : p.live e = some s) {j : Nat}
    (hj : blockOf j ≠ blockOf e) : (p.release c e).slot j = p.slot j := by
  have hlt := lt_size_of_live he
  obtain ⟨l, hl⟩ := h.freeLists (blockOf e) (h.blockOf_lt.mpr hlt)
  have hne : ∀ x, blockOf x = blockOf e → j ≠ x := by
    rintro x hx rfl
    exact hj hx
  have hslots := slots_linkFree p e
  rw [slot_release (lt_of_lt_of_le hlt h.size_le), if_neg (hne e rfl)]
  split_ifs at hslots with hzero
  · rw [slot_congr hslots, setNode, slot_modifySlot, if_neg fun h => hne e rfl h.1.symm]
  · have hmem := (hl.exists_head hzero).1
    rw [slot_congr hslots, slot_spliceFree p e _ (hne e rfl)
      (hne _ ((hl.mem_iff _).mp hmem).2) (hne _ ((hl.mem_iff _).mp (hl.nextFree_mem hmem)).2)]

/-- Only the block of a slot that is given back changes. -/
theorem WellKept.within_release {s : Slot} (h : p.WellKept c) (he : p.live e = some s) :
    p.Within (p.release c e) (blockOf e) := by
  have hb := h.lt_size_blocks (h.blockOf_lt.mpr (lt_size_of_live he))
  refine ⟨size_release .., capacity_release .., by simp [Pool.release], by rw [rejects_release],
    fun j hj => h.slot_release_of_ne he hj, fun d hd => ?_⟩
  have hacc := account_insertFree (p := p) c hb d
  rw [if_neg hd] at hacc
  rw [block_release_eq, block_relaxReject, if_neg fun h => hd h.1, hacc]

/-- The counters of a block after one of its slots was given back. -/
theorem block_release (c : Config) (hb : blockOf e < p.blocks.size) :
    ((p.release c e).block (blockOf e)).free = (p.block (blockOf e)).free + 1 ∧
      ((p.release c e).block (blockOf e)).trials =
        (if (p.block (blockOf e)).free = 0 then (p.block (blockOf e)).trials else 0) ∧
      ((p.release c e).block (blockOf e)).head =
        if (p.block (blockOf e)).free = 0 then (e : Int) else (p.block (blockOf e)).head := by
  have hacc := account_insertFree (p := p) c hb (blockOf e)
  rw [if_pos rfl, Block.account] at hacc
  simp only [Prod.mk.injEq] at hacc
  obtain ⟨hfree, -, htrials, hhead⟩ := hacc
  have hsame : ((p.release c e).block (blockOf e)).free = ((p.insertFree c e).block (blockOf e)).free ∧
      ((p.release c e).block (blockOf e)).trials = ((p.insertFree c e).block (blockOf e)).trials ∧
      ((p.release c e).block (blockOf e)).head = ((p.insertFree c e).block (blockOf e)).head := by
    rw [block_release_eq, block_relaxReject]
    split_ifs <;> exact ⟨rfl, rfl, rfl⟩
  exact ⟨hsame.1.trans hfree, hsame.2.1.trans htrials, hsame.2.2.trans hhead⟩

/-- The free list of the block is what it was, with the slot after the head. -/
theorem WellKept.isFreeList_release {s : Slot} (h : p.WellKept c) (he : p.live e = some s)
    (h0 : e ≠ 0) (hl : p.IsFreeList (blockOf e) l) :
    (p.release c e).IsFreeList (blockOf e) (l.take 1 ++ e :: l.drop 1) := by
  have hlt := lt_size_of_live he
  obtain ⟨hfree, -, hhead⟩ := block_release (p := p) c (h.lt_size_blocks (h.blockOf_lt.mpr hlt))
  refine hl.insert (by omega) hlt (not_free_of_live he) rfl h.size_le (by simp) (fun j => ?_) hfree
    hhead
  rw [slot_release (lt_of_lt_of_le hlt h.size_le), ← slot_congr (slots_linkFree p e)]
  split_ifs <;> exact ⟨rfl, rfl⟩

/-- The bound of a block that has one more free slot is the one it had, or that for so many. -/
theorem WellKept.reject_release {s : Slot} (h : p.WellKept c) (he : p.live e = some s)
    (h0 : e ≠ 0) : 2 ≤ ((p.release c e).block (blockOf e)).reject ∧
      ((p.release c e).block (blockOf e)).reject ≤ 257 := by
  have hbuse := h.blockOf_lt.mpr (lt_size_of_live he)
  have hb := h.lt_size_blocks hbuse
  have hnonneg := h.free_nonneg hbuse
  obtain ⟨l, hl⟩ := h.freeLists _ hbuse
  have hm := h.isFreeList_release he h0 hl
  have hle := hm.length_le
  generalize l.take 1 ++ e :: l.drop 1 = m at hm hle
  have hacc := account_insertFree (p := p) c hb (blockOf e)
  rw [if_pos rfl, Block.account] at hacc
  simp only [Prod.mk.injEq] at hacc
  obtain ⟨hfree, hreject, -⟩ := hacc
  rw [block_release_eq, block_relaxReject]
  split_ifs with hraise
  · -- there is at least one free slot
    have hcount : ((p.insertFree c e).block (blockOf e)).free = m.length := by
      rw [← hm.free_eq, block_release_eq, block_relaxReject, if_pos hraise]
    have hbound := h.bound m.length (by omega) hle
    have hrejects : (p.insertFree c e).reject m.length = p.reject m.length := by
      unfold Pool.reject
      rw [rejects_insertFree]
    simp only [hcount, Int.toNat_natCast, hrejects]
    unfold blockSize at hle
    omega
  · rw [hreject]
    exact h.reject _ hbuse

theorem WellKept.rings_release {s : Slot} (h : p.WellKept c) (he : p.live e = some s) :
    (p.release c e).Rings fun d => ((p.release c e).block d).ring c.maxTrial := by
  refine (h.rings_insertFree (lt_size_of_live he)).congr (fun r => ?_) (by simp [Pool.release])
    (fun d => ?_) (by simp) fun d => ?_
  · unfold Pool.release
    rw [head_modifySlot, head_relaxReject]
  · rw [block_release_eq, block_relaxReject]
    split_ifs <;> exact ⟨rfl, rfl⟩
  · rw [block_release_eq, block_relaxReject]
    split_ifs <;> rfl

/-- **Giving a slot back keeps the invariant.** -/
theorem WellKept.release {s : Slot} (h : p.WellKept c) (he : p.live e = some s) (h0 : e ≠ 0) :
    (p.release c e).WellKept c := by
  have hlt := lt_size_of_live he
  have hbuse := h.blockOf_lt.mpr hlt
  obtain ⟨-, htrials, hhead⟩ := block_release (p := p) c (h.lt_size_blocks hbuse)
  obtain ⟨l, hl⟩ := h.freeLists _ hbuse
  refine h.within (h.within_release he) hbuse ?_ (h.reject_release he h0) ?_ (h.rings_release he)
    ⟨_, h.isFreeList_release he h0 hl⟩ ?_ fun j _ hj => ?_
  · intro m
    unfold Pool.reject
    rw [rejects_release]
    exact h.bound m
  · have hmax := h.maxTrial_pos
    have hrange := h.trials _ hbuse
    rw [htrials]
    split_ifs <;> omega
  · rw [hhead, size_release]
    split_ifs
    · exact ⟨Int.natCast_nonneg e, Int.ofNat_lt.mpr hlt⟩
    · exact h.heads _ hbuse
  · rw [h.live_release he h0, Function.update_apply] at hj
    rw [slot_release (lt_of_lt_of_le hlt h.size_le)]
    split_ifs at hj ⊢ with hje
    · exact ⟨rfl, rfl⟩
    · have hclear := h.clear j hj
      have hslots := slots_linkFree p e
      split_ifs at hslots
      · rw [slot_congr hslots, setNode, slot_modifySlot, if_neg fun h => hje h.1.symm]
        exact hclear
      · rwa [slot_congr hslots, (labels_spliceFree p e _ j).1, (labels_spliceFree p e _ j).2]

end Pool

end DoubleArrayTrie
