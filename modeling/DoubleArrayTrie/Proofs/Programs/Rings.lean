import Mathlib.Data.List.Perm.Subperm
import DoubleArrayTrie.Proofs.Pool.Rings
import DoubleArrayTrie.Proofs.Programs.Basic

/-!
# Programs on rings

Moving a block between rings takes accesses to the blocks around it. They are in range as long as the
links and the heads are, whatever rings these make up; that the block is on the ring it leaves is
checked by the program, and follows from the rings being in order.

* `Pool.Linked`: links and heads are in range.
* `Linked.run_moveBlock`: the program moves the block.
-/

namespace DoubleArrayTrie

/-! ### The programs -/

namespace Program

def nextBlock (b : Nat) : Program Nat := do
  let r ← block b
  index r.next

def prevBlock (b : Nat) : Program Nat := do
  let r ← block b
  index r.prev

def bridge (b : Nat) : Program Unit := do
  let prev ← prevBlock b
  let next ← nextBlock b
  writeBlock prev (.next next)
  writeBlock next (.prev prev)

def splice (b h : Nat) : Program Unit := do
  let last ← prevBlock h
  writeBlock b (.prev last)
  writeBlock b (.next h)
  writeBlock last (.next b)
  writeBlock h (.prev b)

def detach (b : Nat) (r : Ring) (alone : Bool) : Program Unit :=
  if alone then writeHead r 0
  else do
    let next ← nextBlock b
    let h ← head r
    if b = h then do
      bridge b
      writeHead r next
    else bridge b

def linkIn (b : Nat) (r : Ring) (isEmpty : Bool) : Program Unit :=
  if isEmpty then do
    writeBlock b (.prev b)
    writeBlock b (.next b)
  else do
    let h ← head r
    splice b h

def attach (b : Nat) (r : Ring) (isEmpty : Bool) : Program Unit := do
  linkIn b r isEmpty
  writeHead r b

/-- Moves a block, which is not block `0`, from the ring it is on to another. -/
def moveBlock (b : Nat) (r s : Ring) : Program Unit := do
  require (b ≠ 0)
  member r b
  let next ← nextBlock b
  let h ← head s
  detach b r (b == next)
  attach b s (h == 0)

end Program

/-! ### Links in range -/

namespace Pool

variable {c : Config} {p q : Pool} {b d : Nat} {r s : Ring} {ρ : Nat → Ring} {l : List Nat}

/-- The links of the blocks and the heads name blocks, and there are not too many of them. -/
structure Linked (p : Pool) : Prop where
  pos : 0 < p.blocksInUse
  size_le : p.size ≤ Access.maxCapacity
  size_blocks : p.blocksInUse ≤ p.blocks.size
  next : ∀ b, 0 ≤ (p.block b).next ∧ (p.block b).next < p.blocksInUse
  prev : ∀ b, 0 ≤ (p.block b).prev ∧ (p.block b).prev < p.blocksInUse
  head : ∀ r, p.head r < p.blocksInUse

theorem Rings.linked (h : p.Rings ρ) (hpos : 0 < p.blocksInUse) (hsize : p.size ≤ Access.maxCapacity)
    (hblocks : p.blocksInUse ≤ p.blocks.size) : p.Linked where
  pos := hpos
  size_le := hsize
  size_blocks := hblocks
  next b := (h.links_lt hpos b).1
  prev b := (h.links_lt hpos b).2
  head := h.head_lt hpos

/-- A block of a ring is found on it. -/
theorem IsRing.member (h : p.IsRing r l) (hlt : ∀ b ∈ l, b < p.blocksInUse) (hb : b ∈ l) :
    p.Member r b := by
  have hlen : l.length ≤ p.blocksInUse := by
    have hsub : l ⊆ List.range p.blocksInUse := fun d hd => List.mem_range.mpr (hlt d hd)
    have hle := (List.subperm_of_subset h.nodup hsub).length_le
    rwa [List.length_range] at hle
  rcases l with _ | ⟨a, t⟩
  · simp at hb
  have hhead : p.head r = a := h.head_eq
  have hround := h.circular.iterate fun x y hxy => hxy.nextBlock_eq
  refine ⟨?_, ?_⟩
  · have hpos := h.pos a (by simp)
    omega
  · rw [← hround, List.mem_iterate] at hb
    obtain ⟨n, hn, rfl⟩ := hb
    rw [hhead, List.mem_iterate]
    exact ⟨n, lt_of_lt_of_le hn hlen, rfl⟩

theorem Rings.member (h : p.Rings ρ) (hpos : 0 < b) (hlt : b < p.blocksInUse) :
    p.Member (ρ b) b := by
  obtain ⟨l, hring, hmem⟩ := h.on (ρ b)
  exact hring.member (fun d hd => ((hmem d).mp hd).2.1) ((hmem b).mpr ⟨hpos, hlt, rfl⟩)

namespace Linked

theorem fits (h : p.Linked) (hb : b < p.blocksInUse) : Integer.Fits 4 b := by
  have hsize := h.size_le
  unfold blocksInUse blockSize at hb
  unfold Access.maxCapacity at hsize
  rw [Integer.fits_four]
  omega

theorem nextBlock_lt (h : p.Linked) (b : Nat) : p.nextBlock b < p.blocksInUse := by
  have hnext := h.next b
  unfold nextBlock
  omega

theorem prevBlock_lt (h : p.Linked) (b : Nat) : p.prevBlock b < p.blocksInUse := by
  have hprev := h.prev b
  unfold prevBlock
  omega

/-! ### Writes to links -/

theorem setNextBlock (h : p.Linked) (b : Nat) (hd : d < p.blocksInUse) :
    (p.setNextBlock b d).Linked where
  pos := h.pos
  size_le := h.size_le
  size_blocks := h.size_blocks.trans (size_blocks_setNextBlock ..).ge
  next a := by
    unfold Pool.setNextBlock
    rw [block_modifyBlock]
    split_ifs
    · exact ⟨Int.natCast_nonneg d, Int.ofNat_lt.mpr hd⟩
    · exact h.next a
  prev a := by
    rw [prev_setNextBlock]
    exact h.prev a
  head r := by
    rw [head_setNextBlock]
    exact h.head r

theorem setPrevBlock (h : p.Linked) (b : Nat) (hd : d < p.blocksInUse) :
    (p.setPrevBlock b d).Linked where
  pos := h.pos
  size_le := h.size_le
  size_blocks := h.size_blocks.trans (size_blocks_setPrevBlock ..).ge
  next a := by
    rw [next_setPrevBlock]
    exact h.next a
  prev a := by
    unfold Pool.setPrevBlock
    rw [block_modifyBlock]
    split_ifs
    · exact ⟨Int.natCast_nonneg d, Int.ofNat_lt.mpr hd⟩
    · exact h.prev a
  head r := by
    rw [head_setPrevBlock]
    exact h.head r

theorem setHead (h : p.Linked) (r : Ring) (hb : b < p.blocksInUse) : (p.setHead r b).Linked := by
  have huse : (p.setHead r b).blocksInUse = p.blocksInUse := by simp [blocksInUse]
  refine ⟨by rw [huse]; exact h.pos, by simpa using h.size_le, by simpa [huse] using h.size_blocks,
    fun a => ?_, fun a => ?_, fun s => ?_⟩
  · rw [huse, block_setHead]
    exact h.next a
  · rw [huse, block_setHead]
    exact h.prev a
  · rw [huse, head_setHead]
    split_ifs
    · exact hb
    · exact h.head s

theorem bridge (h : p.Linked) (b : Nat) : (p.bridge b).Linked :=
  (h.setNextBlock _ (h.nextBlock_lt b)).setPrevBlock _ (h.prevBlock_lt b)

theorem detach (h : p.Linked) (b : Nat) (r : Ring) (alone : Bool) :
    (p.detach b r alone).Linked := by
  unfold Pool.detach
  dsimp only
  split_ifs
  · exact h.setHead r h.pos
  · exact (h.bridge b).setHead r (h.nextBlock_lt b)
  · exact h.bridge b

/-! ### Runs -/

theorem run_nextBlock (h : p.Linked) (hb : b < p.blocksInUse) :
    (Program.nextBlock b).run c p = some (p, p.nextBlock b) := by
  unfold Program.nextBlock
  rw [Program.run_bind_of (Program.run_block hb)]
  exact Program.run_index (h.next b).1

theorem run_prevBlock (h : p.Linked) (hb : b < p.blocksInUse) :
    (Program.prevBlock b).run c p = some (p, p.prevBlock b) := by
  unfold Program.prevBlock
  rw [Program.run_bind_of (Program.run_block hb)]
  exact Program.run_index (h.prev b).1

theorem run_setNextBlock (h : p.Linked) (hb : b < p.blocksInUse) (hd : d < p.blocksInUse) :
    (Program.writeBlock b (.next d)).run c p = some (p.setNextBlock b d, ()) :=
  Program.run_writeBlock hb (w := .next d) (h.fits hd)

theorem run_setPrevBlock (h : p.Linked) (hb : b < p.blocksInUse) (hd : d < p.blocksInUse) :
    (Program.writeBlock b (.prev d)).run c p = some (p.setPrevBlock b d, ()) :=
  Program.run_writeBlock hb (w := .prev d) (h.fits hd)

theorem run_bridge (h : p.Linked) (hb : b < p.blocksInUse) :
    (Program.bridge b).run c p = some (p.bridge b, ()) := by
  have hprev := h.prevBlock_lt b
  have hnext := h.nextBlock_lt b
  unfold Program.bridge
  rw [Program.run_bind_of (h.run_prevBlock hb), Program.run_bind_of (h.run_nextBlock hb),
    Program.run_bind_of (h.run_setNextBlock hprev hnext)]
  exact (h.setNextBlock _ hnext).run_setPrevBlock hnext hprev

theorem run_splice (h : p.Linked) (hb : b < p.blocksInUse) (hd : d < p.blocksInUse) :
    (Program.splice b d).run c p = some (p.splice b d, ()) := by
  have hlast := h.prevBlock_lt d
  have h1 := h.setPrevBlock b hlast
  have h2 := h1.setNextBlock b hd
  have h3 := h2.setNextBlock (p.prevBlock d) hb
  unfold Program.splice
  rw [Program.run_bind_of (h.run_prevBlock hd), Program.run_bind_of (h.run_setPrevBlock hb hlast),
    Program.run_bind_of (h1.run_setNextBlock hb hd),
    Program.run_bind_of (h2.run_setNextBlock hlast hb)]
  exact h3.run_setPrevBlock hd hb

theorem run_detach (h : p.Linked) (hb : b < p.blocksInUse) (r : Ring) (alone : Bool) :
    (Program.detach b r alone).run c p = some (p.detach b r alone, ()) := by
  unfold Program.detach Pool.detach
  dsimp only
  by_cases halone : alone = true
  · rw [if_pos halone, if_pos halone]
    exact Program.run_writeHead h.pos r
  · rw [if_neg halone, if_neg halone, Program.run_bind_of (h.run_nextBlock hb),
      Program.run_bind_of (Program.run_head r)]
    split_ifs
    · rw [Program.run_bind_of (h.run_bridge hb)]
      exact Program.run_writeHead (p := p.bridge b) (h.nextBlock_lt b) r
    · exact h.run_bridge hb

theorem run_linkIn (h : p.Linked) (hb : b < p.blocksInUse) (r : Ring) (isEmpty : Bool) :
    (Program.linkIn b r isEmpty).run c p = some
      (if isEmpty then (p.setPrevBlock b b).setNextBlock b b else p.splice b (p.head r), ()) := by
  unfold Program.linkIn
  split_ifs
  · rw [Program.run_bind_of (h.run_setPrevBlock hb hb)]
    exact (h.setPrevBlock b hb).run_setNextBlock hb hb
  · rw [Program.run_bind_of (Program.run_head r)]
    exact h.run_splice hb (h.head r)

theorem run_attach (h : p.Linked) (hb : b < p.blocksInUse) (r : Ring) (isEmpty : Bool) :
    (Program.attach b r isEmpty).run c p = some (p.attach b r isEmpty, ()) := by
  unfold Program.attach Pool.attach
  rw [Program.run_bind_of (h.run_linkIn hb r isEmpty)]
  refine Program.run_writeHead ?_ r
  split_ifs
  · exact hb
  · exact hb

/-- **A block is moved** without a fault if it is on the ring that it leaves. -/
theorem run_moveBlock (h : p.Linked) (hpos : 0 < b) (hb : b < p.blocksInUse) (hr : p.Member r b)
    (s : Ring) : (Program.moveBlock b r s).run c p = some (p.moveBlock b r s, ()) := by
  have huse : (p.detach b r (b == p.nextBlock b)).blocksInUse = p.blocksInUse := by
    unfold blocksInUse
    rw [size_detach]
  unfold Program.moveBlock
  rw [Program.run_bind_of (Program.run_require hpos.ne'), Program.run_bind_of (Program.run_member hr),
    Program.run_bind_of (h.run_nextBlock hb), Program.run_bind_of (Program.run_head s),
    Program.run_bind_of (h.run_detach hb r _)]
  exact (h.detach b r _).run_attach (by rwa [huse]) s _

end Linked

end Pool

end DoubleArrayTrie
