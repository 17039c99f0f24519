import DoubleArrayTrie.Proofs.Pool.WellKept

/-!
# Taking a slot

A free slot that is taken leaves the free list of its block. With it the block may lose the right to
its ring: the last free slot makes it full, and the last but one closed, unless its trials had closed
it before. `Pool.take` names the ring that the block leaves without looking at it; that it is the one
the block is on follows from the invariant.

* `WellKept.occupy`: taking a free slot for a node keeps the invariant and makes the slot live.
-/

namespace DoubleArrayTrie

namespace Pool

variable {c : Config} {p q : Pool} {b e : Nat} {l : List Nat}

/-! ### The slot leaves its free list -/

theorem slots_unlinkFree (p : Pool) (e : Nat) : (p.unlinkFree e).slots =
    if (p.block (blockOf e)).free = 1 then p.slots else (p.bridgeFree e).slots := by
  unfold unlinkFree
  dsimp only
  split_ifs <;> rfl

theorem block_unlinkFree (hb : blockOf e < p.blocks.size) (d : Nat) : (p.unlinkFree e).block d =
    if d = blockOf e then
      { p.block d with
        free := (p.block d).free - 1
        head := if (p.block d).free ≠ 1 ∧ (p.block d).head = e then (p.nextFree e : Int)
          else (p.block d).head }
    else p.block d := by
  have hfirst : ∀ d, (p.modifyBlock (blockOf e) fun r' =>
      { r' with free := (p.block (blockOf e)).free - 1 }).block d =
      if d = blockOf e then { p.block d with free := (p.block d).free - 1 } else p.block d := by
    intro d
    rw [block_modifyBlock]
    by_cases hd : d = blockOf e
    · simp [hd, hb]
    · simp [hd, Ne.symm hd]
  unfold unlinkFree
  dsimp only
  by_cases hone : (p.block (blockOf e)).free = 1
  · rw [if_pos hone, hfirst]
    split_ifs with hd hh
    · rw [← hd] at hone
      exact absurd hone hh.1
    · rfl
    · rfl
  by_cases hhead : (p.block (blockOf e)).head = e
  · rw [if_neg hone, if_pos hhead, block_modifyBlock, block_bridgeFree, hfirst]
    by_cases hd : d = blockOf e
    · subst hd
      simp [hone, hhead, hb]
    · simp [hd, Ne.symm hd]
  · rw [if_neg hone, if_neg hhead, block_bridgeFree, hfirst]
    by_cases hd : d = blockOf e
    · subst hd
      simp [hhead]
    · simp [hd]

@[simp] theorem size_blocks_unlinkFree (p : Pool) (e : Nat) :
    (p.unlinkFree e).blocks.size = p.blocks.size := by
  unfold unlinkFree
  dsimp only
  split_ifs <;> simp

@[simp] theorem size_unlinkFree (p : Pool) (e : Nat) : (p.unlinkFree e).size = p.size := by
  unfold unlinkFree
  dsimp only
  split_ifs <;> simp

@[simp] theorem rejects_unlinkFree (p : Pool) (e : Nat) :
    (p.unlinkFree e).rejects = p.rejects := by
  unfold unlinkFree
  dsimp only
  split_ifs <;> simp

@[simp] theorem head_unlinkFree (p : Pool) (e : Nat) (r : Ring) :
    (p.unlinkFree e).head r = p.head r := by
  unfold unlinkFree
  dsimp only
  split_ifs <;> simp

@[simp] theorem capacity_bridgeFree (p : Pool) (e : Nat) :
    (p.bridgeFree e).capacity = p.capacity := by
  simp [bridgeFree, setCheck, setBase]

@[simp] theorem capacity_unlinkFree (p : Pool) (e : Nat) :
    (p.unlinkFree e).capacity = p.capacity := by
  unfold capacity
  rw [slots_unlinkFree]
  split_ifs
  · rfl
  · exact capacity_bridgeFree p e

/-- Linking the neighbours of a free slot puts no slot into use, and none out of use. -/
theorem IsFreeList.live_bridgeFree (h : p.IsFreeList b l) (he : e ∈ l)
    (hcap : p.size ≤ p.capacity) : (p.bridgeFree e).live = p.live := by
  have hcaplt : ∀ x ∈ l, x < p.capacity := fun x hx => by
    have := (h.free hx).2.1
    omega
  have hcheck := check_bridgeFree (hcaplt _ (h.prevFree_mem he)) (hcaplt _ (h.nextFree_mem he))
  have hprev := h.free (h.prevFree_mem he)
  have hnext := h.free (h.nextFree_mem he)
  have hsome : ∀ j, p.Free j → p.live j = none := fun j hj => (free_iff_live.mp hj).2
  funext j
  by_cases hjp : j = p.prevFree e
  · rw [hsome j (hjp ▸ hprev), live_eq_none_iff]
    unfold Free at hprev hnext ⊢
    rw [hcheck, if_pos hjp, size_bridgeFree]
    omega
  by_cases hjn : j = p.nextFree e
  · rw [hsome j (hjn ▸ hnext), live_eq_none_iff]
    unfold Free at hnext ⊢
    rw [hcheck, if_neg hjp, size_bridgeFree, hjn]
    exact .inr hnext
  · unfold live
    rw [slot_bridgeFree p e hjp hjn, size_bridgeFree]

/-! ### The block changes its ring -/

@[simp] theorem slots_take (c : Config) (p : Pool) (e : Nat) :
    (p.take c e).slots = (p.unlinkFree e).slots := by
  unfold take
  dsimp only
  split_ifs <;> simp

@[simp] theorem size_blocks_take (c : Config) (p : Pool) (e : Nat) :
    (p.take c e).blocks.size = p.blocks.size := by
  unfold take
  dsimp only
  split_ifs <;> simp

@[simp] theorem size_take (c : Config) (p : Pool) (e : Nat) : (p.take c e).size = p.size := by
  unfold take
  dsimp only
  split_ifs <;> simp

@[simp] theorem rejects_take (c : Config) (p : Pool) (e : Nat) :
    (p.take c e).rejects = p.rejects := by
  unfold take
  dsimp only
  split_ifs <;> simp

@[simp] theorem capacity_take (c : Config) (p : Pool) (e : Nat) :
    (p.take c e).capacity = p.capacity := by
  unfold capacity
  rw [slots_take]
  exact capacity_unlinkFree p e

@[simp] theorem account_take (c : Config) (p : Pool) (e d : Nat) :
    ((p.take c e).block d).account = ((p.unlinkFree e).block d).account := by
  unfold take
  dsimp only
  split_ifs <;> simp

/-- The links do not change before the block moves. -/
theorem WellKept.rings_unlinkFree (h : p.WellKept c) (he : p.Free e) :
    (p.unlinkFree e).Rings fun b => (p.block b).ring c.maxTrial := by
  have hblock := block_unlinkFree (p := p) (h.lt_size_blocks (h.blockOf_lt.mpr he.2.1))
  refine h.rings.congr (fun _ => head_unlinkFree ..) (size_blocks_unlinkFree ..).ge
    (fun d => ?_) (by simp) fun _ => rfl
  rw [hblock]
  split_ifs <;> exact ⟨rfl, rfl⟩

/-- The ring that a block leaves with a free slot is the one it is on, and the one it comes to is the
one it belongs on then. -/
theorem WellKept.take_cases (h : p.WellKept c) (he : p.Free e) :
    (p.take c e = p.unlinkFree e ∧ (blockOf e = 0 ∨
      ((p.take c e).block (blockOf e)).ring c.maxTrial = (p.block (blockOf e)).ring c.maxTrial)) ∨
    ∃ r s, r ≠ s ∧ 0 < blockOf e ∧ (p.block (blockOf e)).ring c.maxTrial = r ∧
      ((p.take c e).block (blockOf e)).ring c.maxTrial = s ∧
      p.take c e = (p.unlinkFree e).moveBlock (blockOf e) r s := by
  obtain ⟨l, hl, hel⟩ := h.freeList_of_free he
  have hpos := List.length_pos_of_mem hel
  have hfree := hl.free_eq
  have hring := Block.ring_account (m := c.maxTrial) (account_take c p e (blockOf e))
  have hself := block_unlinkFree (h.lt_size_blocks (h.blockOf_lt.mpr he.2.1)) (blockOf e)
  rw [if_pos rfl] at hself
  have hfree' : ((p.unlinkFree e).block (blockOf e)).free = (p.block (blockOf e)).free - 1 := by
    rw [hself]
  have htrials' : ((p.unlinkFree e).block (blockOf e)).trials = (p.block (blockOf e)).trials := by
    rw [hself]
  rw [hring]
  unfold take
  dsimp only
  split_ifs with h0 hfull hclosed
  · exact .inl ⟨rfl, .inl h0⟩
  · refine .inr ⟨.closed, .full, by decide, by omega, ?_, if_pos hfull, rfl⟩
    unfold Block.ring
    rw [if_neg (by omega), if_pos (.inl (by omega))]
  · refine .inr ⟨.opened, .closed, by decide, by omega, Block.ring_eq_opened.mpr (by omega), ?_, rfl⟩
    unfold Block.ring
    rw [if_neg hfull, if_pos (.inl hclosed.1)]
  · refine .inl ⟨rfl, .inr ?_⟩
    unfold Block.ring
    rw [if_neg hfull, if_neg (show (p.block (blockOf e)).free ≠ 0 by omega)]
    by_cases htrial : (p.block (blockOf e)).trials = c.maxTrial
    · rw [if_pos (.inr (htrials'.trans htrial)), if_pos (.inr htrial)]
    · rw [if_neg (by omega), if_neg (by omega)]

/-- **The blocks are on the rings that they belong on** after a slot was taken. -/
theorem WellKept.rings_take (h : p.WellKept c) (he : p.Free e) :
    (p.take c e).Rings fun b => ((p.take c e).block b).ring c.maxTrial := by
  have hbuse : blockOf e < p.blocksInUse := h.blockOf_lt.mpr he.2.1
  have hblock := block_unlinkFree (p := p) (h.lt_size_blocks hbuse)
  have hrings := h.rings_unlinkFree he
  have hother : ∀ d, d ≠ blockOf e →
      ((p.take c e).block d).ring c.maxTrial = (p.block d).ring c.maxTrial := by
    intro d hd
    rw [Block.ring_account (account_take c p e d), hblock, if_neg hd]
  obtain ⟨heq, hstay⟩ | ⟨r, s, hrs, hpos, hr, hs, heq⟩ := h.take_cases he
  · have hkept := hrings.stay hstay hother
    rwa [← heq] at hkept
  · have hmoved := hrings.moveBlock hpos (by simpa [blocksInUse] using hbuse) hr hrs hs hother
    rwa [← heq] at hmoved

/-! ### A slot is taken for a node -/

@[simp] theorem block_occupy (c : Config) (p : Pool) (e : Nat) (label : UInt8) (n d : Nat) :
    (p.occupy c e label n).block d = (p.take c e).block d := rfl

@[simp] theorem size_occupy (c : Config) (p : Pool) (e : Nat) (label : UInt8) (n : Nat) :
    (p.occupy c e label n).size = p.size := size_take c p e

@[simp] theorem rejects_occupy (c : Config) (p : Pool) (e : Nat) (label : UInt8) (n : Nat) :
    (p.occupy c e label n).rejects = p.rejects := rejects_take c p e

@[simp] theorem capacity_occupy (c : Config) (p : Pool) (e : Nat) (label : UInt8) (n : Nat) :
    (p.occupy c e label n).capacity = p.capacity :=
  (capacity_modifySlot ..).trans (capacity_take c p e)

/-- A free slot that is taken is live with a record of its own. -/
theorem WellKept.live_occupy (h : p.WellKept c) (he : p.Free e) (label : UInt8) (n : Nat) :
    (p.occupy c e label n).live =
      Function.update p.live e (some ⟨c.encoding.fresh label, n, 0, 0⟩) := by
  obtain ⟨l, hl, hel⟩ := h.freeList_of_free he
  have hbridge := hl.live_bridgeFree hel h.size_le
  have hlive : (p.take c e).live = p.live := by
    rw [live_congr (q := p.take c e) (p := p.unlinkFree e) (by simp) (slot_congr (by simp))]
    have hslots := slots_unlinkFree p e
    split_ifs at hslots with hone
    · exact live_congr (by simp) (slot_congr hslots)
    · rw [← hbridge]
      exact live_congr (by simp) (slot_congr hslots)
  have hlabels : ((p.take c e).slot e).sibling = 0 ∧ ((p.take c e).slot e).child = 0 := by
    have hclear := h.clear e (free_iff_live.mp he).2
    rw [slot_congr (slots_take c p e)]
    have hslots := slots_unlinkFree p e
    split_ifs at hslots with hone
    · rwa [slot_congr hslots]
    · rw [slot_congr hslots, (labels_bridgeFree p e e).1, (labels_bridgeFree p e e).2]
      exact hclear
  unfold occupy setNode
  rw [live_modifySlot_of_lt (by simpa using h.size_le) (by simpa using he.2.1) _
    (.inr (Int.natCast_nonneg n)), hlive, hlabels.1, hlabels.2]

/-- What the slots hold other than the one that is taken. -/
theorem WellKept.slot_occupy (h : p.WellKept c) (he : e < p.size) (label : UInt8) (n : Nat) {j : Nat}
    (hj : j ≠ e) : (p.occupy c e label n).slot j =
      if (p.block (blockOf e)).free = 1 then p.slot j else (p.bridgeFree e).slot j := by
  have hslots := slots_unlinkFree p e
  unfold Pool.occupy setNode
  rw [slot_modifySlot_of_lt (by simpa using lt_of_lt_of_le he h.size_le), Function.update_of_ne hj,
    slot_congr (slots_take c p e)]
  split_ifs at hslots ⊢ <;> rw [slot_congr hslots]

/-- Taking a slot is no trial. -/
theorem WellKept.trials_occupy (h : p.WellKept c) (he : p.Free e) (label : UInt8) (n : Nat) :
    ((p.occupy c e label n).block (blockOf e)).trials = (p.block (blockOf e)).trials := by
  obtain ⟨-, -, htrials, -⟩ := Block.account_eq_iff.mp (account_take c p e (blockOf e))
  rw [block_occupy, htrials, block_unlinkFree (h.lt_size_blocks (h.blockOf_lt.mpr he.2.1)),
    if_pos rfl]

/-- Only the block of a slot that is taken changes. -/
theorem WellKept.within_occupy (h : p.WellKept c) (he : p.Free e) (label : UInt8) (n : Nat) :
    p.Within (p.occupy c e label n) (blockOf e) := by
  have hb := h.lt_size_blocks (h.blockOf_lt.mpr he.2.1)
  obtain ⟨l, hl, hel⟩ := h.freeList_of_free he
  refine ⟨size_occupy .., capacity_occupy .., size_blocks_take c p e, by rw [rejects_occupy],
    fun j hj => ?_, fun d hd => ?_⟩
  · have hne : ∀ x ∈ l, j ≠ x := by
      rintro x hx rfl
      exact hj ((hl.mem_iff j).mp hx).2
    rw [h.slot_occupy he.2.1 label n (hne e hel)]
    split_ifs
    · rfl
    · exact slot_bridgeFree p e (hne _ (hl.prevFree_mem hel)) (hne _ (hl.nextFree_mem hel))
  · rw [block_occupy, account_take, block_unlinkFree hb, if_neg hd]

/-- The free list of the block is what it was without the slot. -/
theorem WellKept.isFreeList_occupy (h : p.WellKept c) (he : p.Free e) (label : UInt8) (n : Nat)
    (hl : p.IsFreeList (blockOf e) l) :
    (p.occupy c e label n).IsFreeList (blockOf e) (l.erase e) := by
  have hlive := h.live_occupy he label n
  have hblock := block_unlinkFree (p := p) (h.lt_size_blocks (h.blockOf_lt.mpr he.2.1)) (blockOf e)
  rw [if_pos rfl] at hblock
  -- one slot less is free, and the list starts after the slot if it started there
  obtain ⟨hfree, -, -, hhead⟩ := Block.account_eq_iff.mp (account_take c p e (blockOf e))
  rw [hblock] at hfree hhead
  refine hl.erase ((hl.mem_iff e).mpr ⟨he, rfl⟩) h.size_le (by simp)
    (fun j => h.slot_occupy he.2.1 label n) ?_ hfree fun hone => ?_
  · have hsome := live_eq_some_iff.mp (congrFun hlive e |>.trans (Function.update_self ..))
    rw [hsome.2.2]
    exact Int.natCast_nonneg n
  · rw [block_occupy, hhead]
    simp [hone]

/-- **Taking a free slot keeps the invariant.** -/
theorem WellKept.occupy (h : p.WellKept c) (he : p.Free e) (label : UInt8) (n : Nat) :
    (p.occupy c e label n).WellKept c := by
  have hbuse := h.blockOf_lt.mpr he.2.1
  have hb := h.lt_size_blocks hbuse
  obtain ⟨l, hl, hel⟩ := h.freeList_of_free he
  have hlive := h.live_occupy he label n
  have hblock := block_unlinkFree (p := p) hb (blockOf e)
  rw [if_pos rfl] at hblock
  obtain ⟨-, hreject, -, hhead⟩ := Block.account_eq_iff.mp (account_take c p e (blockOf e))
  rw [hblock] at hreject hhead
  have hrings : (p.occupy c e label n).Rings fun d => ((p.take c e).block d).ring c.maxTrial :=
    (h.rings_take he).congr (fun _ => head_modifySlot ..) le_rfl (fun _ => ⟨rfl, rfl⟩) rfl
      fun _ => rfl
  refine h.within (h.within_occupy he label n) hbuse ?_ ?_ ?_ hrings
    ⟨_, h.isFreeList_occupy he label n hl⟩ ?_ fun j _ hj => ?_
  · intro m
    unfold Pool.reject
    rw [rejects_occupy]
    exact h.bound m
  · rw [block_occupy, hreject]
    exact h.reject _ hbuse
  · rw [h.trials_occupy he]
    exact h.trials _ hbuse
  · rw [block_occupy, hhead, size_occupy]
    split_ifs
    · exact ⟨Int.natCast_nonneg _, Int.ofNat_lt.mpr (hl.free (hl.nextFree_mem hel)).2.1⟩
    · exact h.heads _ hbuse
  · rw [hlive, Function.update_apply] at hj
    split_ifs at hj with hje
    have hclear := h.clear j hj
    rw [h.slot_occupy he.2.1 label n hje]
    split_ifs
    · exact hclear
    · rwa [(labels_bridgeFree p e j).1, (labels_bridgeFree p e j).2]

end Pool

end DoubleArrayTrie
