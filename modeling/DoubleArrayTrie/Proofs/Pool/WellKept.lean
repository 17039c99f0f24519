import DoubleArrayTrie.Proofs.Pool.FreeLists

/-!
# The allocator's invariant

A pool is *well kept* if its counters are in range, every block in use has the free list that its
counters say, and every block but block `0` is on the ring that its counters say (`Block.ring`).

* `WellKept.within`: what is to be shown of a change to one block.
* `WellKept.write`: a write to a slot in use that leaves it in use is no business of the allocator.
-/

namespace DoubleArrayTrie

/-- The ring that a block belongs on: no free slot makes it full; one free slot, or as many searches
in vain as are allowed, make it closed. -/
def Block.ring (maxTrial : Int) (r : Block) : Ring :=
  if r.free = 0 then .full else if r.free = 1 ∨ r.trials = maxTrial then .closed else .opened

theorem Block.ring_congr {m : Int} {r s : Block} (hfree : r.free = s.free)
    (htrials : r.trials = s.trials) : r.ring m = s.ring m := by
  unfold ring
  rw [hfree, htrials]

theorem Block.ring_account {m : Int} {r s : Block} (h : r.account = s.account) :
    r.ring m = s.ring m :=
  ring_congr (account_eq_iff.mp h).1 (account_eq_iff.mp h).2.2.1

theorem Block.ring_eq_opened {m : Int} {r : Block} :
    r.ring m = .opened ↔ r.free ≠ 0 ∧ r.free ≠ 1 ∧ r.trials ≠ m := by
  unfold ring
  split_ifs with h0 h1
  · simp [h0]
  · simpa using fun _ hne => h1.resolve_left hne
  · simpa [h0] using h1

namespace Pool

/-- The slots and blocks that are not in use yet are as they were made. -/
structure Unused (p : Pool) : Prop where
  slot : ∀ e, p.size ≤ e → p.slot e = {}
  account : ∀ b, p.blocksInUse ≤ b → (p.block b).account = Block.account {}

/-- The allocator's invariant. -/
structure WellKept (c : Config) (p : Pool) : Prop where
  valid : c.fault? = none
  size_pos : blockSize ≤ p.size
  size_dvd : blockSize ∣ p.size
  size_le : p.size ≤ p.capacity
  capacity_dvd : blockSize ∣ p.capacity
  size_blocks : p.blocks.size = p.capacity / blockSize
  size_rejects : p.rejects.size = rejectCount
  bound : ∀ n, 1 ≤ n → n ≤ blockSize → 2 ≤ p.reject n ∧ p.reject n ≤ n + 1
  reject : ∀ b < p.blocksInUse, 2 ≤ (p.block b).reject ∧ (p.block b).reject ≤ 257
  trials : ∀ b < p.blocksInUse, 0 ≤ (p.block b).trials ∧ (p.block b).trials ≤ c.maxTrial
  rings : p.Rings fun b => (p.block b).ring c.maxTrial
  freeLists : p.FreeLists
  heads : ∀ b < p.blocksInUse, 0 ≤ (p.block b).head ∧ (p.block b).head < p.size
  unused : p.Unused
  clear : ∀ e, p.live e = none → (p.slot e).sibling = 0 ∧ (p.slot e).child = 0

/-- Pool `q` differs from pool `p` in the slots and the counters of block `b`, and in how blocks are
linked. -/
structure Within (p q : Pool) (b : Nat) : Prop where
  size : q.size = p.size
  capacity : q.capacity = p.capacity
  size_blocks : q.blocks.size = p.blocks.size
  size_rejects : q.rejects.size = p.rejects.size
  slot : ∀ e, blockOf e ≠ b → q.slot e = p.slot e
  account : ∀ d, d ≠ b → (q.block d).account = (p.block d).account

variable {c : Config} {p q : Pool} {b e : Nat}

namespace Within

theorem blocksInUse (h : p.Within q b) : q.blocksInUse = p.blocksInUse :=
  congrArg (· / blockSize) h.size

theorem live (h : p.Within q b) (he : blockOf e ≠ b) : q.live e = p.live e := by
  unfold Pool.live
  rw [h.size, h.slot e he]

theorem free_iff (h : p.Within q b) (he : blockOf e ≠ b) : q.Free e ↔ p.Free e := by
  unfold Free
  rw [h.size, h.slot e he]

/-- The other blocks keep their free lists. -/
theorem isFreeList (h : p.Within q b) {d : Nat} {l : List Nat} (hl : p.IsFreeList d l)
    (hdb : d ≠ b) : q.IsFreeList d l := by
  obtain ⟨hfree, -, -, hhead⟩ := Block.account_eq_iff.mp (h.account d hdb)
  refine hl.congr (fun e he => h.free_iff (he.trans_ne hdb)) (fun e he => ?_) hfree fun _ => hhead
  rw [h.slot e (((hl.mem_iff e).mp he).2.trans_ne hdb)]
  exact ⟨rfl, rfl⟩

theorem freeLists (h : p.Within q b) (hp : p.FreeLists) (hself : ∃ l, q.IsFreeList b l) :
    q.FreeLists := by
  intro d hd
  by_cases hdb : d = b
  · rw [hdb]
    exact hself
  rw [h.blocksInUse] at hd
  exact (hp d hd).imp fun l hl => h.isFreeList hl hdb

end Within

theorem Unused.congr (h : p.Unused) (hsize : q.size = p.size)
    (hslot : ∀ e, p.size ≤ e → q.slot e = p.slot e)
    (haccount : ∀ b, p.blocksInUse ≤ b → (q.block b).account = (p.block b).account) : q.Unused where
  slot e he := by
    rw [hsize] at he
    rw [hslot e he, h.slot e he]
  account b hb := by
    rw [blocksInUse, hsize] at hb
    rw [haccount b hb, h.account b hb]

namespace WellKept

theorem blockOf_lt (h : p.WellKept c) : blockOf e < p.blocksInUse ↔ e < p.size :=
  blockOf_lt_iff h.size_dvd

theorem blocksInUse_le (h : p.WellKept c) : p.blocksInUse ≤ p.blocks.size := by
  rw [h.size_blocks]
  exact Nat.div_le_div_right h.size_le

theorem lt_size_blocks (h : p.WellKept c) (hb : b < p.blocksInUse) : b < p.blocks.size :=
  lt_of_lt_of_le hb h.blocksInUse_le

theorem xor_lt (h : p.WellKept c) (l : UInt8) (he : e < p.size) : e ^^^ l.toNat < p.size := by
  rw [← h.blockOf_lt, blockOf_xor, h.blockOf_lt]
  exact he

/-- A free slot is on the free list of its block. -/
theorem freeList_of_free (h : p.WellKept c) (he : p.Free e) :
    ∃ l, p.IsFreeList (blockOf e) l ∧ e ∈ l := by
  obtain ⟨l, hl⟩ := h.freeLists (blockOf e) (h.blockOf_lt.mpr he.2.1)
  exact ⟨l, hl, (hl.mem_iff e).mpr ⟨he, rfl⟩⟩

theorem free_nonneg (h : p.WellKept c) (hb : b < p.blocksInUse) : 0 ≤ (p.block b).free := by
  obtain ⟨l, hl⟩ := h.freeLists b hb
  rw [hl.free_eq]
  exact Int.natCast_nonneg _

theorem maxTrial_pos (h : p.WellKept c) : 1 ≤ c.maxTrial := by
  have hvalid := h.valid
  unfold Options.fault? at hvalid
  split_ifs at hvalid with hlt
  omega

/-- **A change to one block keeps the invariant** if the counters of the block stay in range and its free
list and the rings are what the counters say. -/
theorem within (h : p.WellKept c) (hq : p.Within q b) (hb : b < p.blocksInUse)
    (hbound : ∀ n, 1 ≤ n → n ≤ blockSize → 2 ≤ q.reject n ∧ q.reject n ≤ n + 1)
    (hreject : 2 ≤ (q.block b).reject ∧ (q.block b).reject ≤ 257)
    (htrials : 0 ≤ (q.block b).trials ∧ (q.block b).trials ≤ c.maxTrial)
    (hrings : q.Rings fun d => (q.block d).ring c.maxTrial) (hlist : ∃ l, q.IsFreeList b l)
    (hhead : 0 ≤ (q.block b).head ∧ (q.block b).head < q.size)
    (hclear : ∀ e, blockOf e = b → q.live e = none → (q.slot e).sibling = 0 ∧ (q.slot e).child = 0) :
    q.WellKept c where
  valid := h.valid
  size_pos := by rw [hq.size]; exact h.size_pos
  size_dvd := by rw [hq.size]; exact h.size_dvd
  size_le := by rw [hq.size, hq.capacity]; exact h.size_le
  capacity_dvd := by rw [hq.capacity]; exact h.capacity_dvd
  size_blocks := by rw [hq.size_blocks, hq.capacity]; exact h.size_blocks
  size_rejects := hq.size_rejects.trans h.size_rejects
  bound := hbound
  reject d hd := by
    by_cases hdb : d = b
    · rwa [hdb]
    · rw [hq.blocksInUse] at hd
      rw [(Block.account_eq_iff.mp (hq.account d hdb)).2.1]
      exact h.reject d hd
  trials d hd := by
    by_cases hdb : d = b
    · rwa [hdb]
    · rw [hq.blocksInUse] at hd
      rw [(Block.account_eq_iff.mp (hq.account d hdb)).2.2.1]
      exact h.trials d hd
  rings := hrings
  freeLists := hq.freeLists h.freeLists hlist
  heads d hd := by
    by_cases hdb : d = b
    · rwa [hdb]
    · rw [hq.blocksInUse] at hd
      rw [(Block.account_eq_iff.mp (hq.account d hdb)).2.2.2, hq.size]
      exact h.heads d hd
  unused := by
    refine h.unused.congr hq.size (fun e he => hq.slot e ?_) fun d hd => hq.account d (by omega)
    have hle := mt h.blockOf_lt.mp (not_lt.mpr he)
    omega
  clear e he := by
    by_cases heb : blockOf e = b
    · exact hclear e heb he
    · rw [hq.live heb] at he
      rw [hq.slot e heb]
      exact h.clear e he

/-- A write to a slot in use that leaves it in use is no business of the allocator. -/
theorem write {s : Slot} (h : p.WellKept c) (he : p.live e = some s) (f : Slot → Slot)
    (hf : e = 0 ∨ 0 ≤ (f s).check) : (p.modifySlot e f).WellKept c := by
  have hb := h.blockOf_lt.mpr (lt_size_of_live he)
  have hlive := live_modifySlot h.size_le he f hf
  have hslot := slot_modifySlot_of_lt (lt_of_lt_of_le (lt_size_of_live he) h.size_le) f
  have hq : p.Within (p.modifySlot e f) (blockOf e) := by
    refine ⟨rfl, capacity_modifySlot .., rfl, rfl, fun j hj => ?_, fun _ _ => rfl⟩
    rw [hslot, Function.update_of_ne (ne_of_apply_ne blockOf hj)]
  have hrings : (p.modifySlot e f).Rings fun d => (p.block d).ring c.maxTrial :=
    h.rings.congr (fun _ => head_modifySlot ..) le_rfl (fun _ => ⟨rfl, rfl⟩) rfl fun _ => rfl
  refine h.within hq hb h.bound (h.reject _ hb) (h.trials _ hb) hrings ?_ (h.heads _ hb)
    fun j _ hj => ?_
  · obtain ⟨l, hl⟩ := h.freeLists _ hb
    refine ⟨l, hl.congr (fun j _ => ?_) (fun j hj => ?_) rfl fun _ => rfl⟩
    · rw [free_iff_live, free_iff_live, size_modifySlot, hlive, Function.update_apply]
      split_ifs with hje
      · simp [hje, he]
      · rfl
    · have hje : j ≠ e := fun hje => not_free_of_live he (hje ▸ hl.free hj)
      rw [hslot, Function.update_of_ne hje]
      exact ⟨rfl, rfl⟩
  · rw [hlive, Function.update_apply] at hj
    split_ifs at hj with hje
    rw [hslot, Function.update_of_ne hje]
    exact h.clear j hj

end WellKept

end Pool

end DoubleArrayTrie
