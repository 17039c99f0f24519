import DoubleArrayTrie.Proofs.Lockstep
import DoubleArrayTrie.Proofs.Refinement

/-!
# The books of the allocator

What the records of a pool say about its blocks and free slots, with nothing known but the records.
The blocks of a ring are those that the links lead to from its head; the free list of a block is
what the links yield from the head of the block on, as many slots as the block counts. Slot `0` is
on no free list, although the root names no parent and is marked like a free slot.

* `Pool.OnRing`, `Pool.freeList`: what the links say.
* `Pool.Orderly`: what the records say, all in all.
* `Trie.orderly_run`: this is so after any calls on a new trie.
-/

namespace DoubleArrayTrie

namespace Pool

/-- The links lead to block `b` from the head of ring `r`. -/
def OnRing (p : Pool) (r : Ring) (b : Nat) : Prop :=
  p.head r ≠ 0 ∧ ∃ n, p.nextBlock^[n] (p.head r) = b

/-- As many slots as block `b` counts, from its head on. -/
def freeList (p : Pool) (b : Nat) : List Nat :=
  List.iterate p.nextFree (p.block b).head.toNat (p.block b).free.toNat

/-- The rings and the free lists are as the counters say, and the counters are in range. -/
structure Orderly (c : Config) (p : Pool) : Prop where
  /-- The blocks on rings are those in use but block `0`. -/
  inUse : ∀ b, (∃ r, p.OnRing r b) ↔ 1 ≤ b ∧ b < p.blocksInUse
  /-- No block is on two rings. -/
  unique : ∀ r s b, p.OnRing r b → p.OnRing s b → r = s
  full : ∀ b, 1 ≤ b → b < p.blocksInUse → (p.OnRing .full b ↔ (p.block b).free = 0)
  opened : ∀ b, 1 ≤ b → b < p.blocksInUse →
    (p.OnRing .opened b ↔ 2 ≤ (p.block b).free ∧ (p.block b).trials < c.maxTrial)
  closed : ∀ b, 1 ≤ b → b < p.blocksInUse → (p.OnRing .closed b ↔
    (p.block b).free = 1 ∨ 2 ≤ (p.block b).free ∧ (p.block b).trials = c.maxTrial)
  /-- A head is `0` if and only if there is no block for its ring. -/
  head : ∀ r, p.head r = 0 ↔ ∀ b, ¬ p.OnRing r b
  /-- Where the links lead to and come from is on the ring, and they are inverse. -/
  links : ∀ r b, p.OnRing r b → ∃ d a, p.OnRing r d ∧ p.OnRing r a ∧
    (p.block b).next = d ∧ (p.block d).prev = b ∧ (p.block b).prev = a ∧ (p.block a).next = b
  /-- The links lead from each block of a ring to each. -/
  circular : ∀ r b d, p.OnRing r b → p.OnRing r d → ∃ n, p.nextBlock^[n] b = d
  /-- The free list of a block visits its free slots, each one once. -/
  freeList : ∀ b < p.blocksInUse, (p.freeList b).Nodup ∧
    (p.block b).free = (p.freeList b).length ∧
    ∀ e, e ∈ p.freeList b ↔ e ≠ 0 ∧ blockOf e = b ∧ (p.slot e).check < 0
  /-- Where the links of a free slot lead to is on the list, and they are inverse. -/
  freeLinks : ∀ b < p.blocksInUse, ∀ e ∈ p.freeList b, ∃ d ∈ p.freeList b,
    (p.slot e).check = -(d : Int) ∧ (p.slot d).base = -(e : Int)
  /-- After its last slot a free list comes back to its head. -/
  freeCircular : ∀ b < p.blocksInUse,
    p.nextFree^[(p.freeList b).length] (p.block b).head.toNat = (p.block b).head.toNat
  counters : ∀ b < p.blocksInUse, (0 ≤ (p.block b).free ∧ (p.block b).free ≤ blockSize) ∧
    (2 ≤ (p.block b).reject ∧ (p.block b).reject ≤ 257) ∧
    0 ≤ (p.block b).trials ∧ (p.block b).trials ≤ c.maxTrial
  arrays : blockSize ∣ p.size ∧ blockSize ∣ p.capacity ∧ blockSize ≤ p.size ∧ p.size ≤ p.capacity
  bounds : ∀ n, 1 ≤ n → n ≤ blockSize → 2 ≤ p.reject n ∧ p.reject n ≤ n + 1

/-! ### Rings -/

variable {c : Config} {p : Pool} {r s : Ring} {b d : Nat} {l : List Nat}

/-- The blocks that the links lead to are those of the ring. -/
theorem IsRing.onRing_iff (h : p.IsRing r l) : p.OnRing r b ↔ b ∈ l := by
  constructor
  · rintro ⟨hhead, n, rfl⟩
    induction n with
    | zero => exact h.head_mem hhead
    | succ n ih =>
      rw [Function.iterate_succ_apply']
      exact h.nextBlock_mem ih
  · intro hb
    rcases l with _ | ⟨a, t⟩
    · simp at hb
    · have hhead : p.head r = a := h.head_eq
      have hround := h.circular.iterate fun x y hxy => hxy.nextBlock_eq
      rw [← hround, List.mem_iterate] at hb
      obtain ⟨n, -, hn⟩ := hb
      refine ⟨?_, n, ?_⟩
      · rw [hhead]
        exact (h.pos a (by simp)).ne'
      · rw [hhead, hn]

/-- The links lead from each block of a ring to each. -/
theorem IsRing.exists_iterate (h : p.IsRing r l) (hb : b ∈ l) (hd : d ∈ l) :
    ∃ n, p.nextBlock^[n] b = d := by
  obtain ⟨u, t, rfl⟩ := List.append_of_mem hb
  have hround := Circular.iterate (fun x y hxy => RingLink.nextBlock_eq hxy) h.circular.rotate
  have hd' : d ∈ b :: t.append u := by
    simp only [List.append_eq, List.mem_append, List.mem_cons] at hd ⊢
    tauto
  rw [← hround, List.mem_iterate] at hd'
  obtain ⟨n, -, hn⟩ := hd'
  exact ⟨n, hn.symm⟩

/-- The blocks on a ring are those in use that belong on it. -/
theorem WellKept.onRing_iff (h : p.WellKept c) :
    p.OnRing r b ↔ 0 < b ∧ b < p.blocksInUse ∧ (p.block b).ring c.maxTrial = r := by
  obtain ⟨l, hring, hmem⟩ := h.rings.on r
  rw [hring.onRing_iff, hmem]

/-! ### Free lists -/

/-- Following the links yields the free list. -/
theorem IsFreeList.freeList_eq (h : p.IsFreeList b l) : p.freeList b = l := by
  unfold freeList
  rw [h.free_eq, Int.toNat_natCast]
  rcases l with _ | ⟨a, t⟩
  · rfl
  · rw [h.head_eq a rfl, Int.toNat_natCast, List.length_cons]
    exact h.circular.iterate fun x y hxy => hxy.nextFree_eq

/-! ### The books -/

theorem WellKept.orderly (h : p.WellKept c) : p.Orderly c where
  inUse b := by
    simp only [h.onRing_iff]
    exact ⟨fun ⟨r, hpos, hlt, _⟩ => ⟨hpos, hlt⟩, fun ⟨hpos, hlt⟩ => ⟨_, hpos, hlt, rfl⟩⟩
  unique r s b hr hs := (h.onRing_iff.mp hr).2.2.symm.trans (h.onRing_iff.mp hs).2.2
  full b hpos hlt := by
    have hfree := h.free_nonneg hlt
    have htrials := (h.trials b hlt).2
    rw [h.onRing_iff]
    unfold Block.ring
    split_ifs <;> simp <;> omega
  opened b hpos hlt := by
    have hfree := h.free_nonneg hlt
    have htrials := (h.trials b hlt).2
    rw [h.onRing_iff]
    unfold Block.ring
    split_ifs <;> simp <;> omega
  closed b hpos hlt := by
    have hfree := h.free_nonneg hlt
    have htrials := (h.trials b hlt).2
    rw [h.onRing_iff]
    unfold Block.ring
    split_ifs <;> simp <;> omega
  head r := by
    obtain ⟨l, hring, -⟩ := h.rings.on r
    rw [hring.head_eq_zero_iff, List.eq_nil_iff_forall_not_mem]
    exact forall_congr' fun b => not_congr hring.onRing_iff.symm
  links r b hb := by
    obtain ⟨l, hring, -⟩ := h.rings.on r
    have hb' := hring.onRing_iff.mp hb
    have hnext := hring.link_nextBlock hb'
    have hprev := hring.link_prevBlock hb'
    exact ⟨p.nextBlock b, p.prevBlock b, hring.onRing_iff.mpr (hring.nextBlock_mem hb'),
      hring.onRing_iff.mpr (hring.prevBlock_mem hb'), hnext.1, hnext.2, hprev.2, hprev.1⟩
  circular r b d hb hd := by
    obtain ⟨l, hring, -⟩ := h.rings.on r
    exact hring.exists_iterate (hring.onRing_iff.mp hb) (hring.onRing_iff.mp hd)
  freeList b hb := by
    obtain ⟨l, hl⟩ := h.freeLists b hb
    rw [hl.freeList_eq]
    refine ⟨hl.nodup, hl.free_eq, fun e => ?_⟩
    rw [hl.mem_iff]
    constructor
    · rintro ⟨⟨hpos, -, hcheck⟩, hblock⟩
      exact ⟨hpos.ne', hblock, hcheck⟩
    · rintro ⟨hne, hblock, hcheck⟩
      exact ⟨⟨Nat.pos_of_ne_zero hne, h.blockOf_lt.mp (hblock ▸ hb), hcheck⟩, hblock⟩
  freeLinks b hb e he := by
    obtain ⟨l, hl⟩ := h.freeLists b hb
    rw [hl.freeList_eq] at he ⊢
    exact ⟨p.nextFree e, hl.nextFree_mem he, hl.link_nextFree he⟩
  freeCircular b hb := by
    obtain ⟨l, hl⟩ := h.freeLists b hb
    rw [hl.freeList_eq]
    rcases l with _ | ⟨a, t⟩
    · rfl
    · rw [hl.head_eq a rfl, Int.toNat_natCast, List.length_cons]
      exact hl.circular.iterate_eq fun x y hxy => hxy.nextFree_eq
  counters b hb := by
    obtain ⟨l, hl⟩ := h.freeLists b hb
    refine ⟨⟨h.free_nonneg hb, ?_⟩, h.reject b hb, h.trials b hb⟩
    rw [hl.free_eq]
    exact_mod_cast hl.length_le
  arrays := ⟨h.size_dvd, h.capacity_dvd, h.size_pos, h.size_le⟩
  bounds := h.bound

end Pool

namespace Trie

theorem Holds.orderly {t : Trie} {M : Entries} (h : t.Holds M) : t.pool.Orderly t.config := by
  obtain ⟨T, off, hlays, -⟩ := h
  exact hlays.draws.kept.orderly

/-- **After any calls on a new trie its books are in order**, whatever the encoding and the valid
options, and further calls do not raise a bound. -/
theorem orderly_run {o : Options} (ho : o.validate = .ok ()) (e : Encoding)
    (calls more : List Call) : ∃ t, Trie.create e o = .ok t ∧
      (t.run calls).1.pool.Orderly { o with encoding := e } ∧
      ∀ n, 1 ≤ n → n ≤ blockSize →
        ((t.run calls).1.run more).1.pool.reject n ≤ (t.run calls).1.pool.reject n := by
  obtain ⟨hholds, hconfig, -⟩ := run_holds ho e calls
  have horderly := hholds.orderly
  rw [hconfig] at horderly
  refine ⟨_, (create_eq ho e).1, horderly, fun n hpos hn => ?_⟩
  have hbound := horderly.bounds n hpos hn
  exact (reject_run_le (by omega) more).2

/-- In a new trie the slot of the root is marked like a free one, but block `0` neither counts it nor
has it on its free list. -/
theorem root_notMem_freeList : ∃ t, Trie.create .standard = .ok t ∧
    ¬ ∀ b < t.pool.blocksInUse, ∀ e,
      e ∈ t.pool.freeList b ↔ Pool.blockOf e = b ∧ (t.pool.slot e).check < 0 := by
  obtain ⟨hcreate, hvalid⟩ := create_eq (o := {}) rfl .standard
  have horderly := (holds_empty (c := { encoding := .standard }) hvalid).orderly
  refine ⟨_, hcreate, fun hall => ?_⟩
  have hcheck : ((Trie.empty { encoding := .standard }).pool.slot 0).check < 0 := by
    unfold Trie.empty
    rw [Pool.slot_empty]
    decide
  have huse : 0 < (Trie.empty { encoding := .standard }).pool.blocksInUse :=
    Nat.div_pos horderly.arrays.2.2.1 (by decide)
  have hmem := (hall 0 huse 0).mpr ⟨rfl, hcheck⟩
  exact (((horderly.freeList 0 huse).2.2 0).mp hmem).1 rfl

/-- A block is filled by a long key and emptied again. -/
theorem orderly_run_reduced : Options.validate { maxTrial := 2 } = .ok () ∧
    ∃ t, Trie.create .reduced { maxTrial := 2 } = .ok t ∧
      (t.run [.insert (List.replicate 300 97) 1, .erase (List.replicate 300 97)]).1.pool.Orderly
        { maxTrial := 2, encoding := .reduced } := by
  obtain ⟨t, ht, horderly, -⟩ := orderly_run (o := { maxTrial := 2 }) rfl .reduced
    [.insert (List.replicate 300 97) 1, .erase (List.replicate 300 97)] []
  exact ⟨rfl, t, ht, horderly⟩

end Trie

end DoubleArrayTrie
