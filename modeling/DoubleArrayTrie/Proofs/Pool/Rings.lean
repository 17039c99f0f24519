import Mathlib.Data.List.Nodup
import DoubleArrayTrie.Pool.Ring
import DoubleArrayTrie.Proofs.Circular

/-!
# The rings of blocks

Every block in use but block `0` is on one of three rings. Which one is given here by a function `ρ`
on blocks: `Rings p ρ` says that the heads and the links of the blocks in pool `p` make up three
circular lists, where a block is on ring `ρ b`.

* `IsRing.detach`, `IsRing.attach`: a block leaves a ring, a block joins a ring at its front.
* `Rings.moveBlock`: a block that is moved from the ring it is on is on the other ring afterwards.
-/

namespace DoubleArrayTrie

/-- What is kept about a block besides its links. -/
def Block.account (r : Block) : Int × Int × Int × Int :=
  (r.free, r.reject, r.trials, r.head)

theorem Block.account_eq_iff {r s : Block} : r.account = s.account ↔
    r.free = s.free ∧ r.reject = s.reject ∧ r.trials = s.trials ∧ r.head = s.head := by
  simp [account]

namespace Pool

variable {p : Pool} {r s : Ring} {l : List Nat} {b : Nat}

/-- Block `d` comes after block `b`. -/
def RingLink (p : Pool) (b d : Nat) : Prop := (p.block b).next = d ∧ (p.block d).prev = b

theorem RingLink.nextBlock_eq {d : Nat} (h : p.RingLink b d) : p.nextBlock b = d := by
  unfold nextBlock
  rw [h.1, Int.toNat_natCast]

theorem RingLink.prevBlock_eq {d : Nat} (h : p.RingLink b d) : p.prevBlock d = b := by
  unfold prevBlock
  rw [h.2, Int.toNat_natCast]

/-- The list holds the blocks of ring `r` from the head on. -/
structure IsRing (p : Pool) (r : Ring) (l : List Nat) : Prop where
  nodup : l.Nodup
  circular : Circular p.RingLink l
  head_eq : p.head r = l.headD 0
  pos : ∀ b ∈ l, 0 < b
  lt : ∀ b ∈ l, b < p.blocks.size

/-- The blocks on ring `r` are those with `M r`. -/
def RingsOn (p : Pool) (M : Ring → Nat → Prop) : Prop :=
  ∀ r, ∃ l, p.IsRing r l ∧ ∀ b, b ∈ l ↔ M r b

/-- The three rings hold the blocks in use but block `0`, and `ρ` says which one a block is on. The
other blocks are linked to none. -/
structure Rings (p : Pool) (ρ : Nat → Ring) : Prop where
  on : p.RingsOn fun r b => 0 < b ∧ b < p.blocksInUse ∧ ρ b = r
  off : ∀ b, b = 0 ∨ p.blocksInUse ≤ b → (p.block b).next = 0 ∧ (p.block b).prev = 0

/-! ### Reads after writes of links -/

theorem next_setNextBlock (p : Pool) {b : Nat} (hb : b < p.blocks.size) (c d : Nat) :
    ((p.setNextBlock b c).block d).next = if d = b then (c : Int) else (p.block d).next := by
  unfold setNextBlock
  rw [block_modifyBlock]
  by_cases hd : d = b
  · subst hd; simp [hb]
  · simp [hd, Ne.symm hd]

theorem prev_setPrevBlock (p : Pool) {b : Nat} (hb : b < p.blocks.size) (c d : Nat) :
    ((p.setPrevBlock b c).block d).prev = if d = b then (c : Int) else (p.block d).prev := by
  unfold setPrevBlock
  rw [block_modifyBlock]
  by_cases hd : d = b
  · subst hd; simp [hb]
  · simp [hd, Ne.symm hd]

@[simp] theorem prev_setNextBlock (p : Pool) (b c d : Nat) :
    ((p.setNextBlock b c).block d).prev = (p.block d).prev := by
  unfold setNextBlock
  rw [block_modifyBlock]
  split <;> rfl

@[simp] theorem next_setPrevBlock (p : Pool) (b c d : Nat) :
    ((p.setPrevBlock b c).block d).next = (p.block d).next := by
  unfold setPrevBlock
  rw [block_modifyBlock]
  split <;> rfl

@[simp] theorem size_blocks_setNextBlock (p : Pool) (b c : Nat) :
    (p.setNextBlock b c).blocks.size = p.blocks.size := size_blocks_modifyBlock ..

@[simp] theorem size_blocks_setPrevBlock (p : Pool) (b c : Nat) :
    (p.setPrevBlock b c).blocks.size = p.blocks.size := size_blocks_modifyBlock ..

@[simp] theorem head_setNextBlock (p : Pool) (b c : Nat) (r : Ring) :
    (p.setNextBlock b c).head r = p.head r := head_modifyBlock ..

@[simp] theorem head_setPrevBlock (p : Pool) (b c : Nat) (r : Ring) :
    (p.setPrevBlock b c).head r = p.head r := head_modifyBlock ..

/-! ### A block leaves a ring -/

/-- A ring is known by the links of its blocks and its head. -/
theorem IsRing.congr {p' : Pool} (h : p.IsRing r l) (hhead : p'.head r = p.head r)
    (hsize : p.blocks.size ≤ p'.blocks.size)
    (hnext : ∀ b ∈ l, (p'.block b).next = (p.block b).next)
    (hprev : ∀ b ∈ l, (p'.block b).prev = (p.block b).prev) : p'.IsRing r l where
  nodup := h.nodup
  circular := h.circular.imp fun x hx y hy hxy =>
    ⟨(hnext x hx).trans hxy.1, (hprev y hy).trans hxy.2⟩
  head_eq := hhead.trans h.head_eq
  pos := h.pos
  lt := fun b hb => lt_of_lt_of_le (h.lt b hb) hsize

theorem IsRing.link_nextBlock (h : p.IsRing r l) (hb : b ∈ l) : p.RingLink b (p.nextBlock b) := by
  obtain ⟨y, -, hby⟩ := h.circular.exists_next hb
  rwa [hby.nextBlock_eq]

theorem IsRing.link_prevBlock (h : p.IsRing r l) (hb : b ∈ l) : p.RingLink (p.prevBlock b) b := by
  obtain ⟨y, -, hyb⟩ := h.circular.exists_prev hb
  rwa [hyb.prevBlock_eq]

theorem IsRing.nextBlock_mem (h : p.IsRing r l) (hb : b ∈ l) : p.nextBlock b ∈ l := by
  obtain ⟨y, hy, hby⟩ := h.circular.exists_next hb
  rw [hby.nextBlock_eq]
  exact hy

theorem IsRing.prevBlock_mem (h : p.IsRing r l) (hb : b ∈ l) : p.prevBlock b ∈ l := by
  obtain ⟨y, hy, hyb⟩ := h.circular.exists_prev hb
  rw [hyb.prevBlock_eq]
  exact hy

/-- A ring with a head that is not `0` has this head as its first block. -/
theorem IsRing.head_mem (h : p.IsRing r l) (hne : p.head r ≠ 0) : p.head r ∈ l := by
  rcases l with _ | ⟨a, t⟩
  · exact absurd h.head_eq hne
  · rw [h.head_eq]; simp

theorem IsRing.head_eq_zero_iff (h : p.IsRing r l) : p.head r = 0 ↔ l = [] := by
  rcases l with _ | ⟨a, t⟩
  · simpa using h.head_eq
  · have hpos := h.pos a (by simp)
    have hhead : p.head r = a := h.head_eq
    simp only [hhead, reduceCtorEq, iff_false]
    omega

theorem detach_alone (p : Pool) (b : Nat) (r : Ring) : p.detach b r true = p.setHead r 0 := rfl

theorem detach_linked (p : Pool) (b : Nat) (r : Ring) : p.detach b r false =
    if b = p.head r then (p.bridge b).setHead r (p.nextBlock b) else p.bridge b := rfl

@[simp] theorem size_blocks_bridge (p : Pool) (b : Nat) :
    (p.bridge b).blocks.size = p.blocks.size := by
  simp [bridge]

@[simp] theorem head_bridge (p : Pool) (b : Nat) (r : Ring) : (p.bridge b).head r = p.head r := by
  simp [bridge]

theorem IsRing.next_bridge (h : p.IsRing r l) (hb : b ∈ l) (d : Nat) :
    ((p.bridge b).block d).next = if d = p.prevBlock b then (p.nextBlock b : Int)
      else (p.block d).next := by
  unfold bridge
  rw [next_setPrevBlock, next_setNextBlock _ (h.lt _ (h.prevBlock_mem hb))]

theorem IsRing.prev_bridge (h : p.IsRing r l) (hb : b ∈ l) (d : Nat) :
    ((p.bridge b).block d).prev = if d = p.nextBlock b then (p.prevBlock b : Int)
      else (p.block d).prev := by
  unfold bridge
  rw [prev_setPrevBlock _ (by simpa using h.lt _ (h.nextBlock_mem hb)), prev_setNextBlock]

/-- A block that leaves its ring takes part in no other ring. -/
theorem IsRing.block_detach (h : p.IsRing r l) (hb : b ∈ l) (alone : Bool) {d : Nat} (hd : d ∉ l) :
    ((p.detach b r alone).block d).next = (p.block d).next ∧
      ((p.detach b r alone).block d).prev = (p.block d).prev := by
  have hprev : d ≠ p.prevBlock b := fun hdb => hd (hdb ▸ h.prevBlock_mem hb)
  have hnext : d ≠ p.nextBlock b := fun hdb => hd (hdb ▸ h.nextBlock_mem hb)
  cases alone with
  | true => simp [detach_alone]
  | false =>
    rw [detach_linked]
    split_ifs <;> simp [h.next_bridge hb, h.prev_bridge hb, hprev, hnext]

@[simp] theorem size_blocks_detach (p : Pool) (b : Nat) (r : Ring) (alone : Bool) :
    (p.detach b r alone).blocks.size = p.blocks.size := by
  cases alone with
  | true => simp [detach_alone]
  | false => rw [detach_linked]; split_ifs <;> simp

theorem head_detach_of_ne (p : Pool) (b : Nat) {r s : Ring} (alone : Bool) (hrs : r ≠ s) :
    (p.detach b r alone).head s = p.head s := by
  cases alone with
  | true => simp [detach_alone, head_setHead, hrs]
  | false => rw [detach_linked]; split_ifs <;> simp [head_setHead, hrs]

/-- **A block leaves its ring.** -/
theorem IsRing.detach (h : p.IsRing r l) (hb : b ∈ l) :
    (p.detach b r (b == p.nextBlock b)).IsRing r (l.erase b) := by
  by_cases halone : p.nextBlock b = b
  · obtain rfl := h.circular.eq_singleton h.nodup hb fun y hy => by
      rw [← hy.nextBlock_eq, halone]
    rw [halone, beq_self_eq_true, detach_alone, List.erase_cons_head]
    exact ⟨List.nodup_nil, Circular.nil, by simp [head_setHead], by simp, by simp⟩
  have hbl : b ∉ l.erase b := h.nodup.not_mem_erase
  -- the links of the neighbours are the only ones that change
  have hcirc : Circular (p.bridge b).RingLink (l.erase b) := by
    refine h.circular.erase h.nodup hb (fun x hx y hy hxy => ⟨?_, ?_⟩)
      fun x hx y hy hxb hby => ⟨?_, ?_⟩
    · rw [h.next_bridge hb, if_neg, hxy.1]
      rintro rfl
      have hyb : y = b := hxy.nextBlock_eq.symm.trans (h.link_prevBlock hb).nextBlock_eq
      exact hbl (hyb ▸ hy)
    · rw [h.prev_bridge hb, if_neg, hxy.2]
      rintro rfl
      have hxb : x = b := hxy.prevBlock_eq.symm.trans (h.link_nextBlock hb).prevBlock_eq
      exact hbl (hxb ▸ hx)
    · rw [h.next_bridge hb, if_pos hxb.prevBlock_eq.symm, hby.nextBlock_eq]
    · rw [h.prev_bridge hb, if_pos hby.nextBlock_eq.symm, hxb.prevBlock_eq]
  have hring : ∀ q : Pool, q.blocks = (p.bridge b).blocks → q.head r = (l.erase b).headD 0 →
      q.IsRing r (l.erase b) := fun q hq hhead => by
    have hblock : q.block = (p.bridge b).block := by funext d; unfold block; rw [hq]
    refine ⟨h.nodup.erase b, ?_, hhead, fun d hd => h.pos d (List.mem_of_mem_erase hd), fun d hd => ?_⟩
    · unfold RingLink at hcirc ⊢
      rwa [hblock]
    · rw [hq, size_blocks_bridge]
      exact h.lt d (List.mem_of_mem_erase hd)
  have hhead := h.head_eq
  rw [beq_false_of_ne (Ne.symm halone), detach_linked]
  rcases l with _ | ⟨a, t⟩
  · simp at hb
  have hah : p.head r = a := hhead
  by_cases hba : b = a
  · subst hba
    rw [if_pos hah.symm]
    refine hring _ (by simp) ?_
    rw [head_setHead, if_pos rfl, List.erase_cons_head]
    rcases t with _ | ⟨z, w⟩
    · have hself : p.RingLink b b := Circular.singleton_iff.mp h.circular
      exact absurd hself.nextBlock_eq halone
    · have hbz : p.RingLink b z := (List.isChain_cons_cons.mp h.circular).1
      exact hbz.nextBlock_eq
  · rw [if_neg (by rwa [hah])]
    refine hring _ rfl ?_
    rw [head_bridge, hah, List.erase_cons_tail (by simpa using Ne.symm hba)]
    rfl

/-! ### A block joins a ring -/

theorem attach_empty (p : Pool) (b : Nat) (r : Ring) :
    p.attach b r true = ((p.setPrevBlock b b).setNextBlock b b).setHead r b := rfl

theorem attach_nonempty (p : Pool) (b : Nat) (r : Ring) :
    p.attach b r false = (p.splice b (p.head r)).setHead r b := rfl

@[simp] theorem size_blocks_splice (p : Pool) (b h : Nat) :
    (p.splice b h).blocks.size = p.blocks.size := by
  simp [splice]

@[simp] theorem head_splice (p : Pool) (b h : Nat) (r : Ring) : (p.splice b h).head r = p.head r := by
  simp [splice]

theorem next_splice {h : Nat} (hb : b < p.blocks.size) (hprev : p.prevBlock h < p.blocks.size)
    (d : Nat) : ((p.splice b h).block d).next =
      if d = p.prevBlock h then (b : Int) else if d = b then (h : Int) else (p.block d).next := by
  unfold splice
  rw [next_setPrevBlock, next_setNextBlock _ (by simpa using hprev),
    next_setNextBlock _ (by simpa using hb), next_setPrevBlock]

theorem prev_splice {h : Nat} (hb : b < p.blocks.size) (hh : h < p.blocks.size) (d : Nat) :
    ((p.splice b h).block d).prev =
      if d = h then (b : Int) else if d = b then (p.prevBlock h : Int) else (p.block d).prev := by
  unfold splice
  rw [prev_setPrevBlock _ (by simpa using hh), prev_setNextBlock, prev_setNextBlock,
    prev_setPrevBlock _ hb]

@[simp] theorem size_blocks_attach (p : Pool) (b : Nat) (r : Ring) (isEmpty : Bool) :
    (p.attach b r isEmpty).blocks.size = p.blocks.size := by
  cases isEmpty with
  | true => simp [attach_empty]
  | false => simp [attach_nonempty]

theorem head_attach (p : Pool) (b : Nat) (r s : Ring) (isEmpty : Bool) :
    (p.attach b r isEmpty).head s = if r = s then b else p.head s := by
  cases isEmpty with
  | true => simp [attach_empty, head_setHead]
  | false => simp [attach_nonempty, head_setHead]

/-- A block that joins a ring takes part in no other ring. -/
theorem IsRing.block_attach (h : p.IsRing r l) (hb : b < p.blocks.size) {d : Nat} (hd : d ∉ l)
    (hdb : d ≠ b) : ((p.attach b r (p.head r == 0)).block d).next = (p.block d).next ∧
      ((p.attach b r (p.head r == 0)).block d).prev = (p.block d).prev := by
  by_cases hne : p.head r = 0
  · rw [hne, beq_self_eq_true, attach_empty]
    simp [next_setNextBlock, prev_setPrevBlock, hb, hdb]
  · have hmem := h.head_mem hne
    have hprev := h.prevBlock_mem hmem
    have h1 : d ≠ p.head r := fun he => hd (he ▸ hmem)
    have h2 : d ≠ p.prevBlock (p.head r) := fun he => hd (he ▸ hprev)
    rw [beq_false_of_ne hne, attach_nonempty]
    simp [next_splice hb (h.lt _ hprev), prev_splice hb (h.lt _ hmem), h1, h2, hdb]

/-- In front of the head of a ring there is room for a block. -/
theorem IsRing.splice (h : p.IsRing r l) (hne : p.head r ≠ 0) (hbl : b ∉ l)
    (hb : b < p.blocks.size) : Circular (p.splice b (p.head r)).RingLink (b :: l) := by
  have hmem := h.head_mem hne
  obtain rfl | ⟨t, z, rfl⟩ := l.eq_nil_or_concat'
  · exact absurd hmem (by simp)
  have hcirc : Circular p.RingLink (z :: t) := h.circular.rotate
  have hperm : (t ++ [z]).Perm (z :: t) := List.perm_append_comm
  have hzt : z ∉ t := (List.nodup_cons.mp (hperm.nodup_iff.mp h.nodup)).1
  -- the last block `z` of the ring is the one before the head
  have hzh : p.RingLink z (p.head r) := by
    rw [h.head_eq]
    rcases t with _ | ⟨a, t⟩
    · exact Circular.singleton_iff.mp hcirc
    · exact (List.isChain_cons_cons.mp hcirc).1
  have hz := hzh.prevBlock_eq
  have hnext := next_splice (h := p.head r) hb (h.lt _ (h.prevBlock_mem hmem))
  have hprev := prev_splice (h := p.head r) hb (h.lt _ hmem)
  rw [hz] at hnext hprev
  have hbz : b ≠ z := by rintro rfl; simp at hbl
  have hbh : b ≠ p.head r := fun he => hbl (he ▸ hmem)
  have hjoin : Circular (p.splice b (p.head r)).RingLink ([z] ++ b :: t) := by
    refine hcirc.insert (fun x hx y hy hxy => ⟨?_, ?_⟩) ⟨?_, ?_⟩ fun y hy hzy => ⟨?_, ?_⟩
    · have hxz : x ≠ z := by rintro rfl; exact hzt hx
      have hxb : x ≠ b := by rintro rfl; simp [hx] at hbl
      rw [hnext, if_neg hxz, if_neg hxb, hxy.1]
    · have hyh : y ≠ p.head r := by
        rintro rfl
        exact hzt (hz ▸ hxy.prevBlock_eq ▸ hx)
      have hyb : y ≠ b := by
        rintro rfl
        simp only [List.mem_cons] at hy
        exact hbl (by simpa [or_comm] using hy)
      rw [hprev, if_neg hyh, if_neg hyb, hxy.2]
    · rw [hnext, if_pos rfl]
    · rw [hprev, if_neg hbh, if_pos rfl]
    · rw [hnext, if_neg hbz, if_pos rfl, ← hzy.nextBlock_eq, hzh.nextBlock_eq]
    · rw [hprev, if_pos (by rw [← hzy.nextBlock_eq, hzh.nextBlock_eq])]
  simpa using hjoin.rotate

/-- **A block joins a ring** at its front. -/
theorem IsRing.attach (h : p.IsRing r l) (hbl : b ∉ l) (hpos : 0 < b) (hb : b < p.blocks.size) :
    (p.attach b r (p.head r == 0)).IsRing r (b :: l) := by
  have hcirc : Circular (p.attach b r (p.head r == 0)).RingLink (b :: l) := by
    by_cases hne : p.head r = 0
    · rw [hne, beq_self_eq_true, attach_empty, h.head_eq_zero_iff.mp hne]
      refine Circular.singleton_iff.mpr ⟨?_, ?_⟩ <;>
        simp [next_setNextBlock, prev_setPrevBlock, hb]
    · rw [beq_false_of_ne hne, attach_nonempty]
      refine (h.splice hne hbl hb).imp fun x _ y _ hxy => ⟨?_, ?_⟩
      · rw [block_setHead, hxy.1]
      · rw [block_setHead, hxy.2]
  exact ⟨List.nodup_cons.mpr ⟨hbl, h.nodup⟩, hcirc, by simp [head_attach],
    by simpa using ⟨hpos, h.pos⟩, by simpa using ⟨hb, h.lt⟩⟩

/-! ### A block moves from ring to ring -/

@[simp] theorem account_setNextBlock (p : Pool) (b c d : Nat) :
    ((p.setNextBlock b c).block d).account = (p.block d).account := by
  unfold setNextBlock
  rw [block_modifyBlock]
  split_ifs <;> rfl

@[simp] theorem account_setPrevBlock (p : Pool) (b c d : Nat) :
    ((p.setPrevBlock b c).block d).account = (p.block d).account := by
  unfold setPrevBlock
  rw [block_modifyBlock]
  split_ifs <;> rfl

@[simp] theorem account_attach (p : Pool) (b : Nat) (r : Ring) (isEmpty : Bool) (d : Nat) :
    ((p.attach b r isEmpty).block d).account = (p.block d).account := by
  cases isEmpty with
  | true => simp [attach_empty]
  | false => simp [attach_nonempty, splice]

@[simp] theorem account_detach (p : Pool) (b : Nat) (r : Ring) (alone : Bool) (d : Nat) :
    ((p.detach b r alone).block d).account = (p.block d).account := by
  cases alone with
  | true => simp [detach_alone]
  | false => rw [detach_linked]; split_ifs <;> simp [bridge]

/-- A block that moves from ring to ring keeps what else is known of it. -/
@[simp] theorem account_moveBlock (p : Pool) (b : Nat) (r s : Ring) (d : Nat) :
    ((p.moveBlock b r s).block d).account = (p.block d).account := by
  simp [moveBlock]

@[simp] theorem size_blocks_moveBlock (p : Pool) (b : Nat) (r s : Ring) :
    (p.moveBlock b r s).blocks.size = p.blocks.size := by
  simp [moveBlock]

@[simp] theorem slots_attach (p : Pool) (b : Nat) (r : Ring) (isEmpty : Bool) :
    (p.attach b r isEmpty).slots = p.slots := by
  cases isEmpty <;> simp [attach, splice, setNextBlock, setPrevBlock]

@[simp] theorem rejects_attach (p : Pool) (b : Nat) (r : Ring) (isEmpty : Bool) :
    (p.attach b r isEmpty).rejects = p.rejects := by
  cases isEmpty <;> simp [attach, splice, setNextBlock, setPrevBlock]

@[simp] theorem size_detach (p : Pool) (b : Nat) (r : Ring) (alone : Bool) :
    (p.detach b r alone).size = p.size := by
  cases alone with
  | true => exact size_setHead p r 0
  | false =>
    rw [detach_linked]
    split_ifs
    · exact size_setHead (p.bridge b) r _
    · rfl

@[simp] theorem size_attach (p : Pool) (b : Nat) (r : Ring) (isEmpty : Bool) :
    (p.attach b r isEmpty).size = p.size := by
  cases isEmpty <;> simp [attach, splice, setNextBlock, setPrevBlock]

@[simp] theorem slots_moveBlock (p : Pool) (b : Nat) (r s : Ring) :
    (p.moveBlock b r s).slots = p.slots := by
  cases h : b == p.nextBlock b
  · simp only [moveBlock, h, slots_attach, detach_linked]
    split_ifs <;> simp [bridge, setNextBlock, setPrevBlock]
  · simp [moveBlock, h, detach_alone]

@[simp] theorem rejects_moveBlock (p : Pool) (b : Nat) (r s : Ring) :
    (p.moveBlock b r s).rejects = p.rejects := by
  cases h : b == p.nextBlock b
  · simp only [moveBlock, h, rejects_attach, detach_linked]
    split_ifs <;> simp [bridge, setNextBlock, setPrevBlock]
  · simp [moveBlock, h, detach_alone]

@[simp] theorem size_moveBlock (p : Pool) (b : Nat) (r s : Ring) :
    (p.moveBlock b r s).size = p.size := by
  simp [moveBlock]

variable {M : Ring → Nat → Prop} {ρ : Nat → Ring}

theorem RingsOn.detach (h : p.RingsOn M) (hM : ∀ u d, M u d → M r d → u = r) (hb : M r b) :
    (p.detach b r (b == p.nextBlock b)).RingsOn fun u d => M u d ∧ d ≠ b := by
  obtain ⟨lr, hringr, hmemr⟩ := h r
  have hblr : b ∈ lr := (hmemr b).mpr hb
  intro u
  by_cases hur : u = r
  · subst hur
    refine ⟨lr.erase b, hringr.detach hblr, fun d => ?_⟩
    rw [hringr.nodup.mem_erase_iff, hmemr, and_comm]
  · obtain ⟨l, hring, hmem⟩ := h u
    have hnot : ∀ d ∈ l, d ∉ lr := fun d hd hd' =>
      hur (hM u d ((hmem d).mp hd) ((hmemr d).mp hd'))
    refine ⟨l, hring.congr (head_detach_of_ne _ _ _ (Ne.symm hur)) (by simp)
      (fun d hd => (hringr.block_detach hblr _ (hnot d hd)).1)
      (fun d hd => (hringr.block_detach hblr _ (hnot d hd)).2), fun d => ?_⟩
    rw [hmem]
    exact ⟨fun hd => ⟨hd, fun hdb => hur (hM u d hd (hdb ▸ hb))⟩, And.left⟩

theorem RingsOn.attach (h : p.RingsOn M) (hM : ∀ u d, M u d → M s d → u = s) (hb : ∀ u, ¬ M u b)
    (hpos : 0 < b) (hlt : b < p.blocks.size) :
    (p.attach b s (p.head s == 0)).RingsOn fun u d => M u d ∨ u = s ∧ d = b := by
  obtain ⟨ls, hrings, hmems⟩ := h s
  intro u
  by_cases hus : u = s
  · subst hus
    have hbls : b ∉ ls := fun hm => hb u ((hmems b).mp hm)
    refine ⟨b :: ls, hrings.attach hbls hpos hlt, fun d => ?_⟩
    rw [List.mem_cons, hmems]
    simp [or_comm]
  · obtain ⟨l, hring, hmem⟩ := h u
    have hnot : ∀ d ∈ l, d ∉ ls := fun d hd hd' =>
      hus (hM u d ((hmem d).mp hd) ((hmems d).mp hd'))
    have hne : ∀ d ∈ l, d ≠ b := fun d hd hdb => hb u (hdb ▸ (hmem d).mp hd)
    refine ⟨l, hring.congr (by rw [head_attach, if_neg (Ne.symm hus)]) (by simp)
      (fun d hd => (hrings.block_attach hlt (hnot d hd) (hne d hd)).1)
      (fun d hd => (hrings.block_attach hlt (hnot d hd) (hne d hd)).2), fun d => ?_⟩
    rw [hmem]
    simp [hus]

/-- A block that is on no ring does not notice that another one leaves a ring. -/
theorem RingsOn.links_detach (h : p.RingsOn M) (hb : M r b) {d : Nat} (hd : ¬ M r d) :
    ((p.detach b r (b == p.nextBlock b)).block d).next = (p.block d).next ∧
      ((p.detach b r (b == p.nextBlock b)).block d).prev = (p.block d).prev := by
  obtain ⟨l, hring, hmem⟩ := h r
  exact hring.block_detach ((hmem b).mpr hb) _ (mt (hmem d).mp hd)

/-- A block that is on no ring does not notice that another one joins a ring. -/
theorem RingsOn.links_attach (h : p.RingsOn M) (hlt : b < p.blocks.size) {d : Nat} (hd : ¬ M s d)
    (hdb : d ≠ b) : ((p.attach b s (p.head s == 0)).block d).next = (p.block d).next ∧
      ((p.attach b s (p.head s == 0)).block d).prev = (p.block d).prev := by
  obtain ⟨l, hring, hmem⟩ := h s
  exact hring.block_attach hlt (mt (hmem d).mp hd) hdb

/-- The rings do not depend on anything but the links of their blocks and the heads. -/
theorem RingsOn.congr {p' : Pool} {M' : Ring → Nat → Prop} (h : p.RingsOn M)
    (hhead : ∀ r, p'.head r = p.head r) (hblocks : p.blocks.size ≤ p'.blocks.size)
    (hlinks : ∀ r b, M r b → (p'.block b).next = (p.block b).next ∧
      (p'.block b).prev = (p.block b).prev) (hM : ∀ r b, M' r b ↔ M r b) :
    p'.RingsOn M' := by
  intro r
  obtain ⟨l, hring, hmem⟩ := h r
  exact ⟨l, hring.congr (hhead r) hblocks (fun b hb => (hlinks r b ((hmem b).mp hb)).1)
    (fun b hb => (hlinks r b ((hmem b).mp hb)).2), fun b => (hmem b).trans (hM r b).symm⟩

/-- The rings do not depend on anything but the links of the blocks and the heads. -/
theorem Rings.congr {p' : Pool} {ρ' : Nat → Ring} (h : p.Rings ρ)
    (hhead : ∀ r, p'.head r = p.head r) (hblocks : p.blocks.size ≤ p'.blocks.size)
    (hlinks : ∀ b, (p'.block b).next = (p.block b).next ∧ (p'.block b).prev = (p.block b).prev)
    (hsize : p'.size = p.size) (hρ : ∀ b, ρ' b = ρ b) : p'.Rings ρ' where
  on := h.on.congr hhead hblocks (fun _ b _ => hlinks b) fun r b => by
    rw [hρ, blocksInUse, blocksInUse, hsize]
  off b hb := by
    rw [(hlinks b).1, (hlinks b).2]
    exact h.off b (by rwa [blocksInUse, hsize] at hb)

/-- The links of a block name blocks. -/
theorem Rings.links_lt (h : p.Rings ρ) (hpos : 0 < p.blocksInUse) (b : Nat) :
    (0 ≤ (p.block b).next ∧ (p.block b).next < p.blocksInUse) ∧
      0 ≤ (p.block b).prev ∧ (p.block b).prev < p.blocksInUse := by
  by_cases hb : 0 < b ∧ b < p.blocksInUse
  · obtain ⟨l, hring, hmem⟩ := h.on (ρ b)
    have hbl := (hmem b).mpr ⟨hb.1, hb.2, rfl⟩
    have hnext := ((hmem _).mp (hring.nextBlock_mem hbl)).2.1
    have hprev := ((hmem _).mp (hring.prevBlock_mem hbl)).2.1
    rw [(hring.link_nextBlock hbl).1, (hring.link_prevBlock hbl).2]
    omega
  · obtain ⟨hnext, hprev⟩ := h.off b (by omega)
    rw [hnext, hprev]
    omega

theorem Rings.head_lt (h : p.Rings ρ) (hpos : 0 < p.blocksInUse) (r : Ring) :
    p.head r < p.blocksInUse := by
  obtain ⟨l, hring, hmem⟩ := h.on r
  by_cases h0 : p.head r = 0
  · rwa [h0]
  · exact ((hmem _).mp (hring.head_mem h0)).2.1

/-- Which ring block `0` is said to be on does not matter. -/
theorem Rings.stay {ρ' : Nat → Ring} (h : p.Rings ρ) (hb : b = 0 ∨ ρ' b = ρ b)
    (hother : ∀ d, d ≠ b → ρ' d = ρ d) : p.Rings ρ' := by
  refine ⟨h.on.congr (fun _ => rfl) le_rfl (fun _ _ _ => ⟨rfl, rfl⟩) fun r d => ?_, h.off⟩
  refine and_congr_right fun h0 => and_congr_right fun _ => ?_
  by_cases hd : d = b
  · subst hd
    rw [hb.resolve_left (by omega)]
  · rw [hother d hd]

/-- **A block that is moved from the ring it is on** is on the other ring afterwards. -/
theorem Rings.moveBlock {ρ' : Nat → Ring} (h : p.Rings ρ) (hpos : 0 < b) (hlt : b < p.blocksInUse)
    (hr : ρ b = r) (hrs : r ≠ s) (hs : ρ' b = s) (hother : ∀ d, d ≠ b → ρ' d = ρ d) :
    (p.moveBlock b r s).Rings ρ' := by
  obtain ⟨lr, hringr, hmemr⟩ := h.on r
  have hb : b ∈ lr := (hmemr b).mpr ⟨hpos, hlt, hr⟩
  have hbsize : b < (p.detach b r (b == p.nextBlock b)).blocks.size := by
    simpa using hringr.lt b hb
  have hleft := h.on.detach (r := r) (b := b)
    (fun u d hu hd => hu.2.2.symm.trans hd.2.2) ⟨hpos, hlt, hr⟩
  have hhead := head_detach_of_ne p b (b == p.nextBlock b) hrs
  have hjoined := hleft.attach (s := s) (b := b)
    (fun u d hu hd => hu.1.2.2.symm.trans hd.1.2.2) (fun u hu => hu.2 rfl) hpos hbsize
  rw [hhead] at hjoined
  have huse : (p.moveBlock b r s).blocksInUse = p.blocksInUse := by simp [blocksInUse]
  refine ⟨?_, fun d hd => ?_⟩
  · rw [huse]
    refine hjoined.congr (fun _ => rfl) le_rfl (fun _ _ _ => ⟨rfl, rfl⟩) fun u d => ?_
    by_cases hd : d = b
    · simp [hd, hpos, hlt, hs, eq_comm]
    · simp [hd, hother d hd]
  · rw [huse] at hd
    have hdetach := h.on.links_detach (r := r) (d := d) ⟨hpos, hlt, hr⟩ (by omega)
    have hattach := hleft.links_attach (s := s) (b := b) (d := d) hbsize (by omega) (by omega)
    rw [hhead, hdetach.1, hdetach.2, (h.off d hd).1, (h.off d hd).2] at hattach
    exact hattach

/-- The other blocks of the ring that a block leaves name the same next block, unless they named the
one that leaves. -/
theorem Rings.nextBlock_moveBlock (h : p.Rings ρ) (hpos : 0 < b) (hlt : b < p.blocksInUse)
    (hr : ρ b = r) (hrs : r ≠ s) {d : Nat} (hd : 0 < d ∧ d < p.blocksInUse ∧ ρ d = r) (hdb : d ≠ b)
    (hnext : p.nextBlock d ≠ b) : (p.moveBlock b r s).nextBlock d = p.nextBlock d := by
  obtain ⟨l, hring, hmem⟩ := h.on r
  have hb : b ∈ l := (hmem b).mpr ⟨hpos, hlt, hr⟩
  have hbsize : b < (p.detach b r (b == p.nextBlock b)).blocks.size := by
    simpa using hring.lt b hb
  have hleft := h.on.detach (r := r) (b := b)
    (fun u d hu hd => hu.2.2.symm.trans hd.2.2) ⟨hpos, hlt, hr⟩
  have hattach := hleft.links_attach (s := s) (b := b) (d := d) hbsize
    (fun h => hrs (hd.2.2.symm.trans h.1.2.2)) hdb
  rw [head_detach_of_ne p b (b == p.nextBlock b) hrs] at hattach
  have hdetach : ((p.detach b r (b == p.nextBlock b)).block d).next = (p.block d).next := by
    cases b == p.nextBlock b with
    | true => simp [detach_alone]
    | false =>
      have hprev : d ≠ p.prevBlock b := by
        rintro rfl
        exact hnext (hring.link_prevBlock hb).nextBlock_eq
      have hbridge := hring.next_bridge hb d
      rw [if_neg hprev] at hbridge
      rw [detach_linked]
      split_ifs
      · rw [block_setHead, hbridge]
      · exact hbridge
  exact congrArg Int.toNat (hattach.1.trans hdetach)

end Pool

end DoubleArrayTrie
