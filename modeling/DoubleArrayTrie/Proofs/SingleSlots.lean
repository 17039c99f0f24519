import DoubleArrayTrie.Proofs.Demands

/-!
# Slots for single children

A single child may go to any free slot outside of block `0`, and a new block comes into use only if
there is none left. The slot leaves the free list of its block when it is taken and comes back to it
when it is given back; the free lists are circular, and come down to one slot or none. No other slot in
use and no other free list notices, and the block changes its ring at most once.

* `Pool.Offers`: what finding room for a single child comes to.
* `Pool.Takes`, `Pool.GivesBack`: what taking a slot and giving one back come to.
* `Trie.single_slots_run`: all three, in every pool that arises in a trie.
-/

namespace DoubleArrayTrie

namespace Pool

/-! ### Rings that stay, and a block that moves -/

/-- The rings of pool `q` are those of pool `p`: the heads are the same, and so are the links. -/
structure SameRings (p q : Pool) : Prop where
  head : ∀ r, q.head r = p.head r
  next : ∀ b, (q.block b).next = (p.block b).next
  prev : ∀ b, (q.block b).prev = (p.block b).prev
  size : q.blocks.size = p.blocks.size

/-- Block `b` moves at most once: the rings stay as they are, or it leaves the ring it is on for the
front of another one. -/
def MovesOnce (p : Pool) (b : Nat) (q : Pool) : Prop :=
  p.SameRings q ∨ ∃ r s, r ≠ s ∧ p.OnRing r b ∧ q.OnRing s b ∧ (p.moveBlock b r s).SameRings q

namespace SameRings

variable {p q u : Pool} {r s : Ring} {b d : Nat}

theorem refl (p : Pool) : p.SameRings p := ⟨fun _ => rfl, fun _ => rfl, fun _ => rfl, rfl⟩

theorem trans (h : p.SameRings q) (h' : q.SameRings u) : p.SameRings u :=
  ⟨fun r => (h'.head r).trans (h.head r), fun b => (h'.next b).trans (h.next b),
    fun b => (h'.prev b).trans (h.prev b), h'.size.trans h.size⟩

/-- What is written of a slot is no business of the rings, -/
theorem modifySlot (p : Pool) (i : Nat) (f : Slot → Slot) : p.SameRings (p.modifySlot i f) :=
  ⟨fun _ => head_modifySlot .., fun _ => rfl, fun _ => rfl, rfl⟩

/-- and neither is what is written of a block besides its links. -/
theorem modifyBlock (p : Pool) (b : Nat) {f : Block → Block} (hnext : ∀ r, (f r).next = r.next)
    (hprev : ∀ r, (f r).prev = r.prev) : p.SameRings (p.modifyBlock b f) := by
  refine ⟨fun _ => head_modifyBlock .., fun d => ?_, fun d => ?_, size_blocks_modifyBlock ..⟩ <;>
    rw [block_modifyBlock] <;> split_ifs
  · exact hnext _
  · rfl
  · exact hprev _
  · rfl

theorem nextBlock_eq (h : p.SameRings q) (b : Nat) : q.nextBlock b = p.nextBlock b :=
  congrArg Int.toNat (h.next b)

theorem prevBlock_eq (h : p.SameRings q) (b : Nat) : q.prevBlock b = p.prevBlock b :=
  congrArg Int.toNat (h.prev b)

theorem setHead (h : p.SameRings q) (r : Ring) (b : Nat) :
    (p.setHead r b).SameRings (q.setHead r b) := by
  refine ⟨fun s => ?_, fun d => ?_, fun d => ?_, ?_⟩
  · rw [head_setHead, head_setHead, h.head]
  · rw [block_setHead, block_setHead, h.next]
  · rw [block_setHead, block_setHead, h.prev]
  · rw [blocks_setHead, blocks_setHead, h.size]

theorem setNextBlock (h : p.SameRings q) (b d : Nat) :
    (p.setNextBlock b d).SameRings (q.setNextBlock b d) := by
  refine ⟨fun s => by simp [h.head], fun x => ?_, fun x => by simp [h.prev], by simp [h.size]⟩
  unfold Pool.setNextBlock
  rw [block_modifyBlock, block_modifyBlock, h.size]
  split_ifs
  · rfl
  · exact h.next x

theorem setPrevBlock (h : p.SameRings q) (b d : Nat) :
    (p.setPrevBlock b d).SameRings (q.setPrevBlock b d) := by
  refine ⟨fun s => by simp [h.head], fun x => by simp [h.next], fun x => ?_, by simp [h.size]⟩
  unfold Pool.setPrevBlock
  rw [block_modifyBlock, block_modifyBlock, h.size]
  split_ifs
  · rfl
  · exact h.prev x

theorem bridge (h : p.SameRings q) (b : Nat) : (p.bridge b).SameRings (q.bridge b) := by
  unfold Pool.bridge
  rw [h.prevBlock_eq, h.nextBlock_eq]
  exact (h.setNextBlock _ _).setPrevBlock _ _

theorem splice (h : p.SameRings q) (b d : Nat) : (p.splice b d).SameRings (q.splice b d) := by
  unfold Pool.splice
  rw [h.prevBlock_eq]
  exact (((h.setPrevBlock _ _).setNextBlock _ _).setNextBlock _ _).setPrevBlock _ _

theorem detach (h : p.SameRings q) (b : Nat) (r : Ring) (alone : Bool) :
    (p.detach b r alone).SameRings (q.detach b r alone) := by
  unfold Pool.detach
  dsimp only
  rw [h.nextBlock_eq, h.head]
  split_ifs
  · exact h.setHead r 0
  · exact (h.bridge b).setHead r _
  · exact h.bridge b

theorem attach (h : p.SameRings q) (b : Nat) (r : Ring) (isEmpty : Bool) :
    (p.attach b r isEmpty).SameRings (q.attach b r isEmpty) := by
  unfold Pool.attach
  dsimp only
  rw [h.head]
  split_ifs
  · exact ((h.setPrevBlock b b).setNextBlock b b).setHead r b
  · exact (h.splice b _).setHead r b

/-- A move does to the rings what it does to the same rings elsewhere. -/
theorem moveBlock (h : p.SameRings q) (b : Nat) (r s : Ring) :
    (p.moveBlock b r s).SameRings (q.moveBlock b r s) := by
  unfold Pool.moveBlock
  rw [h.nextBlock_eq, h.head]
  exact (h.detach b r _).attach b s _

end SameRings

/-! ### Room for a single child -/

/-- What finding room for a single child comes to: the pool is `q` then, and `e` is the slot. -/
structure Offers (p q : Pool) (e : Nat) : Prop where
  /-- The slot is free, -/
  free : q.Free e
  /-- and not in block `0`. -/
  outside : blockSize ≤ e
  /-- Nothing is written, or a new block comes into use. -/
  added : q = p ∨ q.size = p.size + blockSize
  /-- A new block comes into use if and only if no block but block `0` has a free slot left. -/
  added_iff : q.size = p.size + blockSize ↔
    ∀ b, 1 ≤ b → b < p.blocksInUse → p.freeList b = []
  /-- The slots that there were stay as they are, -/
  slot : ∀ i < p.size, q.slot i = p.slot i
  /-- and so do the free lists of their blocks. -/
  lists : ∀ b < p.blocksInUse, q.freeList b = p.freeList b

variable {c : Config} {p q : Pool} {b d e n : Nat} {l : List Nat} {label : UInt8}

theorem WellKept.freeList_eq_nil_iff (h : p.WellKept c) (hb : b < p.blocksInUse) :
    p.freeList b = [] ↔ (p.block b).free = 0 := by
  rw [(h.orderly.freeList b hb).2.1, Int.natCast_eq_zero, List.length_eq_zero_iff]

/-- There is no block with a single free slot and none that is open if and only if all are full. -/
theorem WellKept.heads_eq_zero_iff (h : p.WellKept c) : p.closedHead = 0 ∧ p.openHead = 0 ↔
    ∀ b, 1 ≤ b → b < p.blocksInUse → p.freeList b = [] := by
  have hbooks := h.orderly
  have hheads : p.closedHead = 0 ∧ p.openHead = 0 ↔
      ∀ b, ¬ p.OnRing .closed b ∧ ¬ p.OnRing .opened b := by
    rw [forall_and]
    exact and_congr (hbooks.head .closed) (hbooks.head .opened)
  rw [hheads]
  constructor
  · intro hnone b hpos hlt
    rw [h.freeList_eq_nil_iff hlt, ← hbooks.full b hpos hlt]
    obtain ⟨r, hr⟩ := (hbooks.inUse b).mpr ⟨hpos, hlt⟩
    cases r with
    | opened => exact absurd hr (hnone b).2
    | closed => exact absurd hr (hnone b).1
    | full => exact hr
  · intro hfull b
    have hne : ∀ r, r ≠ .full → ¬ p.OnRing r b := fun r hr hb => by
      obtain ⟨hpos, hlt⟩ := (hbooks.inUse b).mp ⟨r, hb⟩
      have hbfull := (hbooks.full b hpos hlt).mpr ((h.freeList_eq_nil_iff hlt).mp (hfull b hpos hlt))
      exact hr (hbooks.unique _ _ b hb hbfull)
    exact ⟨hne .closed (by decide), hne .opened (by decide)⟩

/-- The free lists do not notice that a block comes into use. -/
theorem WellKept.freeList_addBlock (h : p.WellKept c) (hb : b < p.blocksInUse) :
    (p.addBlock c).1.freeList b = p.freeList b := by
  obtain ⟨l, hl⟩ := h.freeLists b hb
  have hsize : (p.addBlock c).1.size = p.size + blockSize := size_addBlock c p
  have hacc := h.account_addBlock b
  rw [if_neg hb.ne] at hacc
  obtain ⟨hfree, -, -, hhead⟩ := Block.account_eq_iff.mp hacc
  have hslot : ∀ i, blockOf i = b → (p.addBlock c).1.slot i = p.slot i := fun i hi =>
    h.slot_addBlock (h.blockOf_lt.mp (hi ▸ hb))
  have hlist : (p.addBlock c).1.IsFreeList b l := by
    refine hl.congr (fun i hi => ?_) (fun i hi => ?_) hfree fun _ => hhead
    · have hlt := h.blockOf_lt.mp (hi ▸ hb)
      unfold Free
      rw [hslot i hi, hsize]
      omega
    · rw [hslot i ((hl.mem_iff i).mp hi).2]
      exact ⟨rfl, rfl⟩
  rw [hlist.freeList_eq, hl.freeList_eq]

/-- **Room for a single child** is a free slot outside of block `0`, in a block that is in use if there
is one. -/
theorem WellKept.offers (h : p.WellKept c) : p.Offers (p.placeOne c).1 (p.placeOne c).2 := by
  obtain ⟨-, -, hfree, hle⟩ := h.placeOne
  have hsize : p.size ≠ p.size + blockSize := by
    unfold blockSize
    omega
  obtain ⟨heq, hheads⟩ | ⟨heq, hheads⟩ := placeOne_cases c p
  · rw [h.heads_eq_zero_iff] at hheads
    rw [heq] at hfree ⊢
    exact ⟨hfree, hle, .inl rfl, iff_of_false hsize hheads, fun _ _ => rfl, fun _ _ => rfl⟩
  · rw [h.heads_eq_zero_iff] at hheads
    rw [heq] at hfree ⊢
    have hadded : (p.addBlock c).1.size = p.size + blockSize := size_addBlock c p
    exact ⟨hfree, hle, .inr hadded, iff_of_true hadded hheads, fun i hi => h.slot_addBlock hi,
      fun b hb => h.freeList_addBlock hb⟩

/-! ### A slot is taken -/

/-- What taking slot `e` for child `label` of node `n` comes to: the pool is `q` then. -/
structure Takes (c : Config) (p : Pool) (e : Nat) (label : UInt8) (n : Nat) (q : Pool) : Prop where
  /-- The slot was on the free list of its block, -/
  mem : e ∈ p.freeList (blockOf e)
  /-- which is the same without it, -/
  list : q.freeList (blockOf e) = (p.freeList (blockOf e)).erase e
  /-- and the block counts one free slot less. -/
  count : (q.block (blockOf e)).free = (p.block (blockOf e)).free - 1
  /-- The other blocks keep their free lists and what is counted of them. -/
  others : ∀ b < p.blocksInUse, b ≠ blockOf e →
    q.freeList b = p.freeList b ∧ (q.block b).account = (p.block b).account
  /-- The slot is in use with a record of its own, and the others are in use as they were. -/
  live : q.live = Function.update p.live e (some ⟨c.encoding.fresh label, n, 0, 0⟩)
  /-- The block moves at most once, -/
  moves : p.MovesOnce (blockOf e) q
  /-- and no other block does. -/
  stay : ∀ b r, b ≠ blockOf e → (q.OnRing r b ↔ p.OnRing r b)

/-- Blocks that count the same are on the same rings. -/
theorem Within.onRing_iff (h : p.Within q b) (hp : p.WellKept c) (hq : q.WellKept c) (hd : d ≠ b)
    {r : Ring} : q.OnRing r d ↔ p.OnRing r d := by
  rw [hp.onRing_iff, hq.onRing_iff, h.blocksInUse, Block.ring_account (h.account d hd)]

theorem Within.freeList_eq (h : p.Within q b) (hp : p.WellKept c) (hlt : d < p.blocksInUse)
    (hd : d ≠ b) : q.freeList d = p.freeList d := by
  obtain ⟨l, hl⟩ := hp.freeLists d hlt
  rw [(h.isFreeList hl hd).freeList_eq, hl.freeList_eq]

theorem WellKept.sameRings_unlinkFree (h : p.WellKept c) (he : p.Free e) :
    p.SameRings (p.unlinkFree e) := by
  have hblock := block_unlinkFree (h.lt_size_blocks (h.blockOf_lt.mpr he.2.1))
  refine ⟨fun _ => head_unlinkFree .., fun d => ?_, fun d => ?_, size_blocks_unlinkFree ..⟩ <;>
    rw [hblock] <;> split_ifs <;> rfl

/-- **A slot is taken**, and nothing else. -/
theorem WellKept.takes (h : p.WellKept c) (he : p.Free e) (label : UInt8) (n : Nat) :
    p.Takes c e label n (p.occupy c e label n) := by
  have hbuse := h.blockOf_lt.mpr he.2.1
  have hq := h.occupy he label n
  have hwithin := h.within_occupy he label n
  obtain ⟨l, hl, hel⟩ := h.freeList_of_free he
  have hlist := h.isFreeList_occupy he label n hl
  have hsame : (p.take c e).SameRings (p.occupy c e label n) := .modifySlot ..
  have hunlink := h.sameRings_unlinkFree he
  refine ⟨hl.freeList_eq.symm ▸ hel, ?_, ?_, fun b hb hbe => ?_, h.live_occupy he label n, ?_,
    fun b r hb => hwithin.onRing_iff h hq hb⟩
  · rw [hlist.freeList_eq, hl.freeList_eq]
  · have hlen := List.length_erase_of_mem hel
    have hpos := List.length_pos_of_mem hel
    rw [hlist.free_eq, hl.free_eq, hlen]
    omega
  · exact ⟨hwithin.freeList_eq h hb hbe, hwithin.account b hbe⟩
  · obtain ⟨heq, -⟩ | ⟨r, s, hrs, hpos, hr, hs, heq⟩ := h.take_cases (c := c) he
    · rw [heq] at hsame
      exact .inl (hunlink.trans hsame)
    · refine .inr ⟨r, s, hrs, h.onRing_iff.mpr ⟨hpos, hbuse, hr⟩,
        hq.onRing_iff.mpr ⟨hpos, by rwa [hwithin.blocksInUse], hs⟩, ?_⟩
      rw [heq] at hsame
      exact (hunlink.moveBlock _ r s).trans hsame

/-! ### A slot is given back -/

/-- What giving back slot `e` comes to: the pool is `q` then. -/
structure GivesBack (p : Pool) (e : Nat) (q : Pool) : Prop where
  /-- The slot was not on the free list of its block, -/
  notMem : e ∉ p.freeList (blockOf e)
  /-- which is the same with it after the first one, -/
  list : q.freeList (blockOf e) =
    (p.freeList (blockOf e)).take 1 ++ e :: (p.freeList (blockOf e)).drop 1
  /-- and the block counts one free slot more. -/
  count : (q.block (blockOf e)).free = (p.block (blockOf e)).free + 1
  /-- The other blocks keep their free lists and what is counted of them. -/
  others : ∀ b < p.blocksInUse, b ≠ blockOf e →
    q.freeList b = p.freeList b ∧ (q.block b).account = (p.block b).account
  /-- The slot is no longer in use and names no labels, -/
  free : q.Free e ∧ (q.slot e).sibling = 0 ∧ (q.slot e).child = 0
  /-- and the others are in use as they were. -/
  live : q.live = Function.update p.live e none
  /-- The block moves at most once, -/
  moves : p.MovesOnce (blockOf e) q
  /-- and no other block does. -/
  stay : ∀ b r, b ≠ blockOf e → (q.OnRing r b ↔ p.OnRing r b)

theorem WellKept.sameRings_linkFree (h : p.WellKept c) (hlt : e < p.size) :
    p.SameRings (p.linkFree e) := by
  have hblock := block_linkFree (h.lt_size_blocks (h.blockOf_lt.mpr hlt))
  refine ⟨fun _ => head_linkFree .., fun d => ?_, fun d => ?_, size_blocks_linkFree ..⟩ <;>
    rw [hblock] <;> split_ifs <;> rfl

theorem sameRings_relaxReject (p : Pool) (b : Nat) : p.SameRings (p.relaxReject b) := by
  refine ⟨fun _ => head_relaxReject .., fun d => ?_, fun d => ?_, size_blocks_relaxReject ..⟩ <;>
    rw [block_relaxReject] <;> split_ifs <;> rfl

/-- **A slot is given back**, and nothing else. -/
theorem WellKept.givesBack {s : Slot} (h : p.WellKept c) (he : p.live e = some s) (h0 : e ≠ 0) :
    p.GivesBack e (p.release c e) := by
  have hlt := lt_size_of_live he
  have hbuse := h.blockOf_lt.mpr hlt
  have hq := h.release he h0
  have hwithin := h.within_release (c := c) he
  have hlive := h.live_release he h0
  obtain ⟨l, hl⟩ := h.freeLists _ hbuse
  have hlist := h.isFreeList_release he h0 hl
  have hnone : (p.release c e).live e = none := by rw [hlive, Function.update_self]
  refine ⟨?_, ?_, (block_release c (h.lt_size_blocks hbuse)).1, fun b hb hbe => ?_,
    ⟨free_iff_live.mpr ⟨by rwa [size_release], hnone⟩, hq.clear e hnone⟩, hlive, ?_,
    fun b r hb => hwithin.onRing_iff h hq hb⟩
  · rw [hl.freeList_eq]
    exact fun hel => not_free_of_live he (hl.free hel)
  · rw [hlist.freeList_eq, hl.freeList_eq]
  · exact ⟨hwithin.freeList_eq h hb hbe, hwithin.account b hbe⟩
  · have hlast : ((p.insertFree c e).relaxReject (blockOf e)).SameRings (p.release c e) :=
      .modifySlot ..
    have hring : ((p.release c e).block (blockOf e)).ring c.maxTrial =
        ((p.insertFree c e).block (blockOf e)).ring c.maxTrial := by
      rw [block_release_eq, block_relaxReject]
      split_ifs <;> rfl
    obtain ⟨u, hu, hcases⟩ := h.insertFree_cases (c := c) hlt
    have hsame : u.SameRings (p.release c e) := by
      refine SameRings.trans ?_ ((sameRings_relaxReject ..).trans hlast)
      rcases hu with heq | heq
      · exact heq ▸ SameRings.refl u
      · exact heq ▸ SameRings.modifyBlock u _ (fun _ => rfl) fun _ => rfl
    have hlink := h.sameRings_linkFree hlt
    obtain ⟨rfl, -⟩ | ⟨r, t, hrt, hpos, hr, ht, rfl⟩ := hcases
    · exact .inl (hlink.trans hsame)
    · exact .inr ⟨r, t, hrt, h.onRing_iff.mpr ⟨hpos, hbuse, hr⟩,
        hq.onRing_iff.mpr ⟨hpos, by rwa [hwithin.blocksInUse], hring.trans ht⟩,
        (hlink.moveBlock _ r t).trans hsame⟩

/-! ### A node is pointed at its children -/

/-- What pointing node `n` at its children comes to, where `raw` says where they are: the pool is `q`
then. -/
structure Points (p : Pool) (n : Nat) (raw : Int) (q : Pool) : Prop where
  /-- The word of the node is another one, and nothing else in use changes. -/
  live : ∃ s, p.live n = some s ∧ q.live = Function.update p.live n (some { s with base := raw })
  /-- The free lists are the same, -/
  lists : ∀ b, q.freeList b = p.freeList b
  /-- and so is all that is known of the blocks. -/
  blocks : q.block = p.block
  heads : ∀ r, q.head r = p.head r

theorem freeList_setBase (p : Pool) (n : Nat) (raw : Int) (b : Nat) :
    (p.setBase n raw).freeList b = p.freeList b := by
  have hnext : (p.setBase n raw).nextFree = p.nextFree := by
    funext i
    unfold nextFree setBase
    rw [slot_modifySlot]
    split_ifs <;> rfl
  unfold freeList
  rw [hnext]
  rfl

theorem WellKept.points {s : Slot} (h : p.WellKept c) (hn : p.live n = some s) (raw : Int) :
    p.Points n raw (p.setBase n raw) := by
  obtain ⟨-, hused, rfl⟩ := live_eq_some_iff.mp hn
  exact ⟨⟨_, hn, live_modifySlot h.size_le hn _ hused⟩, freeList_setBase p n raw, rfl,
    fun _ => head_modifySlot ..⟩

end Pool

/-! ### The pools that arise in a trie -/

namespace Trie

variable {o : Options} {e : Encoding} {t : Trie} {p : Pool}

/-- Slots of a block may be taken until so many are left. -/
theorem Arises.exists_free (hcreate : Trie.create e o = .ok t) (hp : t.Arises p) {b k : Nat}
    (hb : b < p.blocksInUse) (hk : (k : Int) ≤ (p.block b).free) :
    ∃ q, t.Arises q ∧ q.size = p.size ∧ q.capacity = p.capacity ∧ (q.block b).free = k ∧
      (q.block b).trials = (p.block b).trials := by
  obtain ⟨n, hn⟩ := Int.le.dest hk
  induction n generalizing p with
  | zero => exact ⟨p, hp, rfl, rfl, by omega, rfl⟩
  | succ n ih =>
    have hkept := hp.kept hcreate
    obtain ⟨i, hi⟩ : ∃ i, i ∈ p.freeList b := by
      refine List.exists_mem_of_ne_nil _ fun hnil => ?_
      rw [hkept.freeList_eq_nil_iff hb] at hnil
      omega
    obtain ⟨-, -, hmem⟩ := hkept.orderly.freeList b hb
    obtain ⟨hi0, rfl, hcheck⟩ := (hmem i).mp hi
    have hfree : p.Free i := ⟨Nat.pos_of_ne_zero hi0, hkept.blockOf_lt.mp hb, hcheck⟩
    have hcount := (hkept.takes hfree 97 0).count
    obtain ⟨q, hq, hsize, hcapacity, hleft, htrials⟩ :=
      ih (hp.serve (d := .take i 97 0) hfree) (by simpa [Pool.serve, Pool.blocksInUse] using hb)
        (by rw [Pool.serve, hcount]; omega) (by rw [Pool.serve, hcount]; omega)
    refine ⟨q, hq, hsize.trans (Pool.size_occupy ..), hcapacity.trans (Pool.capacity_occupy ..),
      hleft, htrials.trans (hkept.trials_occupy hfree 97 0)⟩

/-- Room for a single child in a new trie is in a new block, of which so many slots may be left. -/
theorem exists_free_of_create (hcreate : Trie.create e o = .ok t) {k : Nat} (hk : k ≤ 256) :
    ∃ q, t.Arises q ∧ q.size = 512 ∧ q.capacity = 512 ∧ (q.block 1).free = k ∧
      (q.block 1).trials = 0 := by
  have hp : t.Arises t.pool := (ComesTo.rest []).arises
  have hkept := hp.kept hcreate
  obtain ⟨-, rfl⟩ := validate_of_create hcreate
  generalize hc : (Trie.empty { o with encoding := e }).config = c at *
  have hempty : (Trie.empty { o with encoding := e }).pool.size = 256 ∧
      (Trie.empty { o with encoding := e }).pool.capacity = 256 := by
    rw [pool_empty, Pool.size_empty, Pool.capacity_empty]
    exact ⟨rfl, rfl⟩
  generalize (Trie.empty { o with encoding := e }).pool = p at *
  have huse : p.blocksInUse = 1 := congrArg (· / blockSize) hempty.1
  have hadd : (p.placeOne c).1 = (p.addBlock c).1 := by
    refine ((Pool.placeOne_cases c p).resolve_left fun hno => hno.2 ?_).1
    rw [hkept.heads_eq_zero_iff]
    intro b hb hlt
    omega
  have hsize : (p.addBlock c).1.size = 512 := by
    rw [Pool.size_addBlock, hempty.1]
    rfl
  have huse' : (p.addBlock c).1.blocksInUse = 2 := congrArg (· / blockSize) hsize
  have hcapacity : (p.addBlock c).1.capacity = 512 := by
    refine le_antisymm ?_ (hsize.ge.trans hkept.addBlock.1.size_le)
    have hstep := c.growth.step_le p.capacity
    unfold Pool.addBlock
    dsimp only
    rw [Pool.capacity_openBlock, if_pos (hempty.1.trans hempty.2.symm), Pool.capacity_grow]
    omega
  have hacc := hkept.account_addBlock 1
  rw [if_pos huse.symm] at hacc
  simp only [Block.account, Prod.mk.injEq] at hacc
  have hq := hp.serve (d := .single) trivial
  rw [hc, Pool.serve, hadd] at hq
  obtain ⟨q, hq', hsize', hcapacity', hfree, htrials⟩ :=
    hq.exists_free hcreate (b := 1) (k := k) (by omega) (by omega)
  exact ⟨q, hq', hsize'.trans hsize, hcapacity'.trans hcapacity, hfree,
    htrials.trans hacc.2.2.1⟩

end Trie

end DoubleArrayTrie
