import DoubleArrayTrie.Proofs.Allocation

/-!
# The same records under other heads

The heads of the rings and the size are kept apart from the records. Records that are in order stay
so under other heads as long as the size is the same and each head is on its ring; where on the ring
does not matter, since rings are circular.

* `Pool.Heads`: heads and a size that fit the records of a pool.
* `WellKept.iff_heads`: these are all for which the records are in order.
* `Trie.Holds.of_heads`: under such heads a trie holds the same entries.
-/

namespace DoubleArrayTrie

namespace Pool

variable {c : Config} {p q : Pool} {T : Outline} {off : Trail → Nat} {r : Ring} {l : List Nat}

/-- Each head of `q` is on its ring in `p`, or the ring is empty, and the size is that of `p`. -/
structure Heads (p q : Pool) : Prop where
  size : q.size = p.size
  empty : ∀ r, q.head r = 0 → p.head r = 0
  on : ∀ r, q.head r ≠ 0 → p.OnRing r (q.head r)

/-- The pools have the same records, whatever their heads. -/
structure SameRecords (p q : Pool) : Prop where
  slots : q.slots = p.slots
  blocks : q.blocks = p.blocks
  rejects : q.rejects = p.rejects

/-- A ring may be entered at each of its blocks. -/
theorem IsRing.rehead (h : p.IsRing r l) (hblocks : q.blocks = p.blocks)
    (hempty : q.head r = 0 → l = []) (hmem : q.head r ≠ 0 → q.head r ∈ l) :
    ∃ l', q.IsRing r l' ∧ ∀ b, b ∈ l' ↔ b ∈ l := by
  by_cases h0 : q.head r = 0
  · obtain rfl := hempty h0
    exact ⟨[], ⟨List.nodup_nil, .nil, h0, by simp, by simp⟩, by simp⟩
  · obtain ⟨u, t, hl⟩ := List.append_of_mem (hmem h0)
    have hlink : q.RingLink = p.RingLink := by
      funext b d
      unfold RingLink
      rw [block_congr hblocks]
    have hperm : l.Perm (q.head r :: t ++ u) := by
      rw [hl]
      exact List.perm_append_comm
    have hcircular := h.circular
    rw [hl] at hcircular
    refine ⟨q.head r :: t ++ u, ⟨hperm.nodup_iff.mp h.nodup, ?_, rfl, ?_, ?_⟩,
      fun b => hperm.mem_iff.symm⟩
    · rw [hlink]
      exact hcircular.rotate
    · exact fun b hb => h.pos b (hperm.mem_iff.mpr hb)
    · rw [hblocks]
      exact fun b hb => h.lt b (hperm.mem_iff.mpr hb)

namespace WellKept

/-- Records that are in order tell how many of them are in use. -/
theorem size_le_of_records (h : p.WellKept c) (hq : q.WellKept c) (hpq : p.SameRecords q) :
    q.size ≤ p.size := by
  by_contra hlt
  rw [not_le] at hlt
  have huse : p.blocksInUse < q.blocksInUse := by
    have hp := h.size_dvd
    have hq := hq.size_dvd
    unfold blocksInUse blockSize at *
    omega
  -- the block is in use in one pool, with as many free slots as one that was never used
  obtain ⟨l, hl⟩ := hq.freeLists _ huse
  have hfree : (l.length : Int) = 256 := by
    rw [← hl.free_eq, block_congr hpq.blocks]
    exact (Block.account_eq_iff.mp (h.unused.account _ le_rfl)).1
  obtain ⟨e, he⟩ := List.exists_mem_of_length_pos (l := l) (by omega)
  obtain ⟨⟨-, -, hcheck⟩, hblock⟩ := (hl.mem_iff e).mp he
  have hunused : p.size ≤ e := by
    rw [← not_lt, ← h.blockOf_lt, hblock]
    exact lt_irrefl _
  rw [slot_congr hpq.slots, h.unused.slot e hunused] at hcheck
  exact absurd hcheck (by decide)

/-- **Records are in order under those heads that are on their rings.** -/
theorem iff_heads (h : p.WellKept c) (hpq : p.SameRecords q) : q.WellKept c ↔ p.Heads q := by
  constructor
  · intro hq
    have hsize : q.size = p.size :=
      le_antisymm (h.size_le_of_records hq hpq)
        (hq.size_le_of_records h ⟨hpq.slots.symm, hpq.blocks.symm, hpq.rejects.symm⟩)
    have huse : q.blocksInUse = p.blocksInUse := congrArg (· / blockSize) hsize
    have honRing : ∀ r b, q.OnRing r b ↔ p.OnRing r b := by
      intro r b
      rw [h.onRing_iff, hq.onRing_iff, huse, block_congr hpq.blocks]
    refine ⟨hsize, fun r h0 => ?_, fun r h0 => ?_⟩
    · rw [h.orderly.head]
      exact fun b hb => ((hq.orderly.head r).mp h0) b ((honRing r b).mpr hb)
    · exact (honRing r _).mp ⟨h0, 0, rfl⟩
  · intro hheads
    have hrings : ∀ r, ∃ l, q.IsRing r l ∧
        ∀ b, b ∈ l ↔ 0 < b ∧ b < p.blocksInUse ∧ (p.block b).ring c.maxTrial = r := by
      intro r
      obtain ⟨l, hring, hmem⟩ := h.rings.on r
      obtain ⟨l', hring', hmem'⟩ := hring.rehead hpq.blocks
        (fun h0 => hring.head_eq_zero_iff.mp (hheads.empty r h0))
        fun h0 => hring.onRing_iff.mp (hheads.on r h0)
      exact ⟨l', hring', fun b => (hmem' b).trans (hmem b)⟩
    obtain ⟨slots, blocks, rejects, fullHead, closedHead, openHead, size, backing, journal⟩ := q
    obtain ⟨rfl, rfl, rfl⟩ := hpq
    obtain rfl : size = p.size := hheads.size
    exact ⟨h.valid, h.size_pos, h.size_dvd, h.size_le, h.capacity_dvd, h.size_blocks,
      h.size_rejects, h.bound, h.reject, h.trials, ⟨hrings, h.rings.off⟩,
      fun b hb => (h.freeLists b hb).imp fun l hl =>
        hl.congr (fun _ _ => Iff.rfl) (fun _ _ => ⟨rfl, rfl⟩) rfl fun _ => rfl,
      h.heads, h.unused.congr rfl (fun _ _ => rfl) fun _ _ => rfl, h.clear⟩

end WellKept

/-- A trie is read off the slots alone. -/
theorem Lays.of_records (h : p.Lays c T off) (hq : q.WellKept c) (hpq : p.SameRecords q)
    (hsize : q.size = p.size) : q.Lays c T off where
  sound := h.sound
  draws := by
    have hlive := live_congr hsize (slot_congr hpq.slots)
    refine ⟨hq, ?_, h.draws.inj, ?_⟩
    · rw [hlive]
      exact h.draws.live
    · rw [hlive]
      exact h.draws.onto
  root := h.root
  deep := h.deep

end Pool

/-- **Under heads that are on their rings a trie holds the same entries.** -/
theorem Trie.Holds.of_heads {t u : Trie} {M : Entries} (h : t.Holds M) (hconfig : u.config = t.config)
    (hrecords : t.pool.SameRecords u.pool) (hheads : t.pool.Heads u.pool) : u.Holds M := by
  have hkept := (h.kept.iff_heads hrecords).mpr hheads
  obtain ⟨T, off, hlays, hholds⟩ := h
  unfold Trie.Holds
  rw [hconfig]
  exact ⟨T, off, hlays.of_records hkept hrecords hheads.size, hholds⟩

theorem Trie.Holds.congr {t u : Trie} {M : Entries} (h : t.Holds M) (hut : u.Alike t) : u.Holds M := by
  refine h.of_heads hut.1 ⟨hut.2.congr Pool.slots, hut.2.congr Pool.blocks, hut.2.congr Pool.rejects⟩
    ⟨hut.2.size_eq, fun r h0 => ?_, fun r h0 => ?_⟩
  · rw [← hut.2.head_eq, h0]
  · rw [hut.2.head_eq] at h0 ⊢
    exact ⟨h0, 0, rfl⟩

end DoubleArrayTrie
