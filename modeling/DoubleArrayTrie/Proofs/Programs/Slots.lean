import DoubleArrayTrie.Proofs.Pool.Releasing
import DoubleArrayTrie.Proofs.Pool.Taking
import DoubleArrayTrie.Proofs.Programs.Rings

/-!
# Programs that take and give back slots

The programs check that a slot that is taken is free and that one that is given back is in use. The
invariant of the allocator says that the slots next to a free one are in range, and that the rings
from which blocks are moved are those they are on.

* `WellKept.run_occupy`, `WellKept.run_release`: in a pool that is well kept the programs take free
  slots and give back slots in use.
-/

namespace DoubleArrayTrie

/-! ### The programs -/

namespace Program

open Pool (blockOf)

/-- Carries out a program if something is the case. -/
def when (P : Prop) [Decidable P] (x : Program Unit) : Program Unit := if P then x else pure ()

theorem run_when {P : Prop} [Decidable P] {c : Config} {p q : Pool} {x : Program Unit}
    (h : P → x.run c p = some (q, ())) :
    (when P x).run c p = some (if P then q else p, ()) := by
  unfold when
  split_ifs with hP
  · exact h hP
  · rfl

theorem gives_when {P : Prop} [Decidable P] {c : Config} {p q : Pool} {x : Program Unit}
    (h : P → x.Gives c p (q, ())) (hcap : p.capacity ≤ Access.maxCapacity) :
    (when P x).Gives c p (if P then q else p, ()) := by
  unfold when
  split_ifs with hP
  · exact h hP
  · exact gives_of_run rfl hcap

def prevFree (e : Nat) : Program Nat := do
  let s ← slot e
  let i ← negate s.base
  index i

def nextFree (e : Nat) : Program Nat := do
  let s ← slot e
  let i ← negate s.check
  index i

def bridgeFree (e : Nat) : Program Unit := do
  let prev ← prevFree e
  let next ← nextFree e
  writeSlot prev (.check (-(next : Int)))
  writeSlot next (.base (-(prev : Int)))

def spliceFree (e h : Nat) : Program Unit := do
  let next ← nextFree h
  writeSlot e (.node (-(h : Int)) (-(next : Int)))
  writeSlot h (.check (-(e : Int)))
  writeSlot next (.base (-(e : Int)))

def unlinkFree (e : Nat) : Program Unit := do
  let r ← block (blockOf e)
  let _ ← prevFree e
  let next ← nextFree e
  writeBlock (blockOf e) (.free (r.free - 1))
  if r.free = 1 then pure ()
  else if r.head = e then do
    bridgeFree e
    writeBlock (blockOf e) (.head next)
  else bridgeFree e

/-- Takes a slot, which must be free. -/
def take (maxTrial : Int) (e : Nat) : Program Unit := do
  let s ← slot e
  require (e ≠ 0 ∧ s.check < 0)
  unlinkFree e
  let r ← block (blockOf e)
  if blockOf e = 0 then pure ()
  else if r.free = 0 then moveBlock (blockOf e) .closed .full
  else if r.free = 1 ∧ r.trials ≠ maxTrial then moveBlock (blockOf e) .opened .closed
  else pure ()

def occupy (rules : Rules) (e : Nat) (label : UInt8) (parent : Nat) : Program Unit := do
  take rules.maxTrial e
  writeSlot e (.node (rules.encoding.fresh label) parent)

def linkFree (e : Nat) : Program Unit := do
  let r ← block (blockOf e)
  writeBlock (blockOf e) (.free (r.free + 1))
  if r.free = 0 then do
    writeBlock (blockOf e) (.head e)
    writeSlot e (.node (-(e : Int)) (-(e : Int)))
  else do
    let h ← index r.head
    spliceFree e h

def insertFree (maxTrial : Int) (e : Nat) : Program Unit := do
  linkFree e
  let r ← block (blockOf e)
  if r.free = 1 then when (blockOf e ≠ 0) (moveBlock (blockOf e) .full .closed)
  else do
    when (blockOf e ≠ 0 ∧ (r.free = 2 ∨ r.trials = maxTrial))
      (moveBlock (blockOf e) .closed .opened)
    writeBlock (blockOf e) (.trials 0)

def relaxReject (b : Nat) : Program Unit := do
  let r ← block b
  let n ← index r.free
  let x ← bound n
  when (r.reject < x) (writeBlock b (.reject x))

/-- Gives back a slot, which must be in use. -/
def release (maxTrial : Int) (e : Nat) : Program Unit := do
  let s ← slot e
  require (e ≠ 0 ∧ 0 ≤ s.check)
  insertFree maxTrial e
  relaxReject (blockOf e)
  writeSlot e .clear

end Program

/-- The word of a slot that was just taken fits. -/
theorem Encoding.word_fresh (e : Encoding) (label : UInt8) : e.Word (e.fresh label) := by
  cases e with
  | standard =>
    simp only [fresh]
    split_ifs <;> decide
  | reduced => exact (by decide : reduced.Word unset)

/-- A word that stands for no children, or for an offset. -/
theorem Encoding.word_of_nonpos (e : Encoding) {raw : Int} (hraw : raw ≤ 0)
    (hfits : Integer.Fits 4 raw) : e.Word raw := by
  cases e with
  | standard => exact hfits
  | reduced =>
    refine ⟨hfits, ?_⟩
    rw [Integer.fits_four] at hfits ⊢
    omega

namespace Pool

variable {c : Config} {p q : Pool} {b e h : Nat} {l : List Nat}

/-! ### Free lists -/

/-- The slots before and after slot `e` on a free list are in range. -/
structure Threaded (p : Pool) (e : Nat) : Prop where
  lt : e < p.size
  size_le : p.size ≤ Access.maxCapacity
  prev : p.FreeLink (p.prevFree e) e
  next : p.FreeLink e (p.nextFree e)
  prev_lt : p.prevFree e < p.size
  next_lt : p.nextFree e < p.size

theorem IsFreeList.threaded (hl : p.IsFreeList b l) (he : e ∈ l)
    (hsize : p.size ≤ Access.maxCapacity) : p.Threaded e where
  lt := (hl.free he).2.1
  size_le := hsize
  prev := hl.link_prevFree he
  next := hl.link_nextFree he
  prev_lt := (hl.free (hl.prevFree_mem he)).2.1
  next_lt := (hl.free (hl.nextFree_mem he)).2.1

theorem fits_slot (hsize : p.size ≤ Access.maxCapacity) (he : e < p.size) :
    Integer.Fits 4 e ∧ Integer.Fits 4 (-(e : Int)) := by
  unfold Access.maxCapacity at hsize
  rw [Integer.fits_four, Integer.fits_four]
  omega

/-- So does a link to it as a word. -/
theorem word_link (hsize : p.size ≤ Access.maxCapacity) (he : e < p.size) :
    c.encoding.Word (-(e : Int)) :=
  c.encoding.word_of_nonpos (by omega) (fits_slot hsize he).2

namespace Threaded

theorem run_prevFree (he : p.Threaded e) :
    (Program.prevFree e).run c p = some (p, p.prevFree e) := by
  have hbase : -(p.slot e).base = (p.prevFree e : Int) := by rw [he.prev.2, Int.neg_neg]
  unfold Program.prevFree
  rw [Program.run_bind_of (Program.run_slot he.lt), Program.run_bind_of (Program.run_negate _)]
  · exact Program.run_index (by rw [hbase]; exact Int.natCast_nonneg _)
  · rw [hbase]
    exact (fits_slot he.size_le he.prev_lt).1

theorem run_nextFree (he : p.Threaded e) :
    (Program.nextFree e).run c p = some (p, p.nextFree e) := by
  have hcheck : -(p.slot e).check = (p.nextFree e : Int) := by rw [he.next.1, Int.neg_neg]
  unfold Program.nextFree
  rw [Program.run_bind_of (Program.run_slot he.lt), Program.run_bind_of (Program.run_negate _)]
  · exact Program.run_index (by rw [hcheck]; exact Int.natCast_nonneg _)
  · rw [hcheck]
    exact (fits_slot he.size_le he.next_lt).1

theorem run_bridgeFree (he : p.Threaded e) :
    (Program.bridgeFree e).run c p = some (p.bridgeFree e, ()) := by
  unfold Program.bridgeFree
  rw [Program.run_bind_of he.run_prevFree, Program.run_bind_of he.run_nextFree,
    Program.run_bind_of (Program.run_setCheck he.prev_lt (fits_slot he.size_le he.next_lt).2)]
  exact Program.run_setBase he.next_lt (word_link he.size_le he.prev_lt)

theorem run_spliceFree (hh : p.Threaded h) (he : e < p.size) :
    (Program.spliceFree e h).run c p = some (p.spliceFree e h, ()) := by
  unfold Program.spliceFree
  rw [Program.run_bind_of hh.run_nextFree,
    Program.run_bind_of (Program.run_setNode he (word_link hh.size_le hh.lt)
      (fits_slot hh.size_le hh.next_lt).2),
    Program.run_bind_of (Program.run_setCheck (p := p.setNode _ _ _) hh.lt
      (fits_slot hh.size_le he).2)]
  exact Program.run_setBase hh.next_lt (word_link hh.size_le he)

end Threaded

/-- Two writes to a block are one. -/
theorem modifyBlock_modifyBlock (p : Pool) (b : Nat) (f g : Block → Block) :
    (p.modifyBlock b f).modifyBlock b g = p.modifyBlock b fun r => g (f r) := by
  have hblocks : (p.blocks.modify b f).modify b g = p.blocks.modify b fun r => g (f r) := by
    refine Array.ext (by simp) fun i _ _ => ?_
    simp only [Array.getElem_modify]
    split_ifs <;> rfl
  unfold modifyBlock
  rw [hblocks]

/-! ### Taking a slot -/

/-- The number of free slots of a block fits, and so do those next to it. -/
theorem IsFreeList.fits_free (hl : p.IsFreeList b l) :
    Integer.Fits 2 ((p.block b).free + 1) ∧ Integer.Fits 2 ((p.block b).free - 1) := by
  have hlen := hl.length_le
  unfold blockSize at hlen
  rw [hl.free_eq, Integer.fits_two, Integer.fits_two]
  omega

namespace WellKept

theorem run_unlinkFree (hp : p.WellKept c) (he : p.Free e) (hsize : p.size ≤ Access.maxCapacity) :
    (Program.unlinkFree e).run c p = some (p.unlinkFree e, ()) := by
  have hb := hp.blockOf_lt.mpr he.2.1
  obtain ⟨l, hl, hel⟩ := hp.freeList_of_free he
  have hthread := hl.threaded hel hsize
  have hbridge : ∀ f, (Program.bridgeFree e).run c (p.modifyBlock (blockOf e) f) =
      some ((p.modifyBlock (blockOf e) f).bridgeFree e, ()) := fun f =>
    Threaded.run_bridgeFree (p := p.modifyBlock (blockOf e) f) ⟨hthread.1, hthread.2, hthread.3,
      hthread.4, hthread.5, hthread.6⟩
  unfold Program.unlinkFree Pool.unlinkFree
  rw [Program.run_bind_of (Program.run_block hb), Program.run_bind_of hthread.run_prevFree,
    Program.run_bind_of hthread.run_nextFree,
    Program.run_bind_of (Program.run_writeBlock hb (w := .free _) hl.fits_free.2)]
  dsimp only
  split_ifs
  · rfl
  · rw [Program.run_bind_of (hbridge _)]
    exact Program.run_writeBlock (p := (p.modifyBlock (blockOf e) _).bridgeFree e) hb (w := .head _)
      (fits_slot hsize hthread.next_lt).1
  · exact hbridge _

theorem run_take (hp : p.WellKept c) (he : p.Free e) (hsize : p.size ≤ Access.maxCapacity) :
    (Program.take c.maxTrial e).run c p = some (p.take c e, ()) := by
  have hb := hp.blockOf_lt.mpr he.2.1
  have hb' : blockOf e < (p.unlinkFree e).blocksInUse := by simpa [blocksInUse] using hb
  have hrings := hp.rings_unlinkFree he
  have hlinked : (p.unlinkFree e).Linked := hrings.linked (by omega) (by simpa using hsize)
    (by simpa [blocksInUse] using hp.blocksInUse_le)
  obtain ⟨l, hl, hel⟩ := hp.freeList_of_free he
  have hpos := List.length_pos_of_mem hel
  have hfree := hl.free_eq
  have hblock := block_unlinkFree (hp.lt_size_blocks hb) (blockOf e)
  rw [if_pos rfl] at hblock
  have hfree' : ((p.unlinkFree e).block (blockOf e)).free = (p.block (blockOf e)).free - 1 := by
    rw [hblock]
  have htrials' : ((p.unlinkFree e).block (blockOf e)).trials = (p.block (blockOf e)).trials := by
    rw [hblock]
  have hmove := fun (h0 : 0 < blockOf e) (r s : Ring) (hr : (p.block (blockOf e)).ring _ = r) =>
    hlinked.run_moveBlock (c := c) h0 hb' (hr ▸ hrings.member h0 hb') s
  unfold Block.ring at hmove
  unfold Program.take Pool.take
  rw [Program.run_bind_of (Program.run_slot he.2.1),
    Program.run_bind_of (Program.run_require ⟨he.1.ne', he.2.2⟩),
    Program.run_bind_of (hp.run_unlinkFree he hsize), Program.run_bind_of (Program.run_block hb')]
  dsimp only
  split_ifs with h0 hfull hclosed
  · rfl
  · refine hmove (by omega) .closed .full ?_
    rw [if_neg (by omega), if_pos (.inl (by omega))]
  · refine hmove (by omega) .opened .closed ?_
    rw [if_neg (by omega), if_neg (by rw [← htrials']; omega)]
  · rfl

/-- **A free slot is taken** without a fault. -/
theorem run_occupy (hp : p.WellKept c) (he : p.Free e) (hsize : p.size ≤ Access.maxCapacity)
    (label : UInt8) {n : Nat} (hn : n < p.size) :
    (Program.occupy c.rules e label n).run c p = some (p.occupy c e label n, ()) := by
  unfold Program.occupy
  refine (Program.run_bind_of (hp.run_take he hsize)).trans ?_
  exact Program.run_setNode (by simpa using he.2.1) (c.encoding.word_fresh label)
    (fits_slot hsize hn).1

/-! ### Giving a slot back -/

theorem run_linkFree (hp : p.WellKept c) (he : e < p.size) (hsize : p.size ≤ Access.maxCapacity) :
    (Program.linkFree e).run c p = some (p.linkFree e, ()) := by
  have hb := hp.blockOf_lt.mpr he
  obtain ⟨l, hl⟩ := hp.freeLists _ hb
  unfold Program.linkFree Pool.linkFree
  rw [Program.run_bind_of (Program.run_block hb),
    Program.run_bind_of (Program.run_writeBlock hb (w := .free _) hl.fits_free.1)]
  dsimp only
  split_ifs with hzero
  · rw [Program.run_bind_of (Program.run_writeBlock (p := p.modifyBlock (blockOf e) _) hb (w := .head e)
      (fits_slot hsize he).1), modifyBlock_modifyBlock]
    exact Program.run_setNode (p := p.modifyBlock (blockOf e) _) he (word_link hsize he)
      (fits_slot hsize he).2
  · obtain ⟨hmem, hhead⟩ := hl.exists_head hzero
    have hthread := hl.threaded hmem hsize
    rw [Program.run_bind_of (Program.run_index (by omega))]
    exact Threaded.run_spliceFree (p := p.modifyBlock (blockOf e) _) ⟨hthread.1, hthread.2,
      hthread.3, hthread.4, hthread.5, hthread.6⟩ he

theorem run_insertFree (hp : p.WellKept c) (he : e < p.size) (hsize : p.size ≤ Access.maxCapacity) :
    (Program.insertFree c.maxTrial e).run c p = some (p.insertFree c e, ()) := by
  have hb := hp.blockOf_lt.mpr he
  have hb' : blockOf e < (p.linkFree e).blocksInUse := by simpa [blocksInUse] using hb
  have hnonneg := hp.free_nonneg hb
  have hrings := hp.rings_linkFree he
  have hlinked : (p.linkFree e).Linked := hrings.linked (by omega) (by simpa using hsize)
    (by simpa [blocksInUse] using hp.blocksInUse_le)
  have hblock := block_linkFree (hp.lt_size_blocks hb) (blockOf e)
  rw [if_pos rfl] at hblock
  have hfree' : ((p.linkFree e).block (blockOf e)).free = (p.block (blockOf e)).free + 1 := by
    rw [hblock]
  have htrials' : ((p.linkFree e).block (blockOf e)).trials = (p.block (blockOf e)).trials := by
    rw [hblock]
  have hmove := fun (h0 : blockOf e ≠ 0) (r s : Ring) (hr : (p.block (blockOf e)).ring _ = r) =>
    hlinked.run_moveBlock (c := c) (by omega) hb' (hr ▸ hrings.member (by omega) hb') s
  unfold Block.ring at hmove
  unfold Program.insertFree Pool.insertFree
  rw [Program.run_bind_of (hp.run_linkFree he hsize), Program.run_bind_of (Program.run_block hb')]
  dsimp only
  by_cases hone : ((p.linkFree e).block (blockOf e)).free = 1
  · rw [if_pos hone, if_pos hone, Program.run_when fun h0 => hmove h0 .full .closed
      (if_pos (by omega)), ite_not]
  · have hclosed : blockOf e ≠ 0 ∧ (((p.linkFree e).block (blockOf e)).free = 2 ∨
        ((p.linkFree e).block (blockOf e)).trials = c.maxTrial) →
        (if (p.block (blockOf e)).free = 0 then Ring.full
          else if (p.block (blockOf e)).free = 1 ∨ (p.block (blockOf e)).trials = c.maxTrial
            then .closed else .opened) = .closed := by
      rintro ⟨-, hclosed⟩
      rw [if_neg (by omega), if_pos (by rw [← htrials']; omega)]
    rw [if_neg hone, if_neg hone, Program.run_bind_of
      (Program.run_when fun h => hmove h.1 .closed .opened (hclosed h))]
    refine Program.run_writeBlock ?_ (w := .trials 0) (by decide)
    split_ifs
    · simpa [blocksInUse] using hb
    · exact hb'

theorem run_relaxReject {x : Int} (hb : b < p.blocksInUse) (hx : (p.block b).free = x) (hx1 : 1 ≤ x)
    (hx256 : x ≤ 256) (hbound : ∀ n, 1 ≤ n → n ≤ blockSize → 2 ≤ p.reject n ∧ p.reject n ≤ n + 1) :
    (Program.relaxReject b).run c p = some (p.relaxReject b, ()) := by
  have hreject := hbound (p.block b).free.toNat (by omega) (by unfold blockSize; omega)
  unfold Program.relaxReject Pool.relaxReject
  rw [Program.run_bind_of (Program.run_block hb), Program.run_bind_of (Program.run_index (by omega)),
    Program.run_bind_of (Program.run_bound (by unfold rejectCount; omega))]
  exact Program.run_when fun _ => Program.run_writeBlock hb (w := .reject _)
    (Integer.fits_two.mpr (by omega))

/-- **A slot in use is given back** without a fault. -/
theorem run_release {s : Slot} (hp : p.WellKept c) (he : p.live e = some s) (h0 : e ≠ 0)
    (hsize : p.size ≤ Access.maxCapacity) :
    (Program.release c.maxTrial e).run c p = some (p.release c e, ()) := by
  obtain ⟨hlt, hlive, -⟩ := live_eq_some_iff.mp he
  have hb := hp.blockOf_lt.mpr hlt
  obtain ⟨l, hl⟩ := hp.freeLists _ hb
  obtain ⟨m, hm⟩ := (hp.release he h0).freeLists (blockOf e) (by simpa [blocksInUse] using hb)
  have hacc := account_insertFree c (hp.lt_size_blocks hb) (blockOf e)
  rw [if_pos rfl, Block.account] at hacc
  simp only [Prod.mk.injEq] at hacc
  -- its block has a free slot now, and at most all of them
  have hfree : ((p.release c e).block (blockOf e)).free =
      ((p.insertFree c e).block (blockOf e)).free := by
    unfold Pool.release
    rw [block_modifySlot, block_relaxReject]
    split_ifs <;> rfl
  have hlen := hm.length_le
  have hcount := hm.free_eq
  have hnonneg := hp.free_nonneg hb
  unfold blockSize at hlen
  unfold Program.release
  rw [Program.run_bind_of (Program.run_slot hlt),
    Program.run_bind_of (Program.run_require ⟨h0, hlive.resolve_left h0⟩),
    Program.run_bind_of (hp.run_insertFree hlt hsize),
    Program.run_bind_of (run_relaxReject (by simpa [blocksInUse] using hb) rfl (by omega) (by omega)
      fun n => by simpa [Pool.reject] using hp.bound n)]
  exact Program.run_clear (by simpa using hlt)

end WellKept

end Pool

end DoubleArrayTrie
