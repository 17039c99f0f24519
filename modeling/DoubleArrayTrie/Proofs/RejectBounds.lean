import DoubleArrayTrie.Proofs.Agreement
import DoubleArrayTrie.Proofs.Demands

/-!
# What is known of blocks that have no room

The bound of a block is meant to be the smallest number of children known not to fit. A search in vain
sets it to the number asked for, though, also where the block was turned down unsearched since that
number was not below the bound: then the bound goes up, and what was known of smaller numbers is
forgotten. Apart from slots that are given back this is the only way in which a bound goes up, so no
bound rises as long as nothing is asked for that it excludes.

* `Pool.Learns`: what a search for room leaves of what is known of the blocks.
* `Pool.Serves.reject_le`: the bound of a block over a run of demands.
* `Trie.learns_run`: both, in every pool that arises in a trie.
-/

namespace DoubleArrayTrie

/-- The number of children that room is searched for. -/
def Demand.children : Demand → Nat
  | .several labels => labels.length
  | _ => 0

namespace Pool

/-- What a search for room for children with these labels leaves of what is known of the blocks: the
pool is `q` then. The blocks of the open ring are those that were searched in `vain` and the `rest`. -/
structure Learns (p : Pool) (labels : List UInt8) (vain rest : List Nat) (q : Pool) : Prop where
  /-- The blocks were visited along the ring, up to the first one with room. -/
  ring : p.IsRing .opened (vain ++ rest)
  inVain : ∀ b ∈ vain, ¬ p.HasRoom labels b
  found : ∀ b ∈ rest.head?, p.HasRoom labels b
  /-- The bound of a block that was visited in vain is the number of children, and that of the others
  is what it was. -/
  bound : ∀ b < p.blocksInUse, (q.block b).reject =
    if b ∈ vain then (labels.length : Int) else (p.block b).reject
  /-- So it goes down where the block might have had room by its bound, -/
  tighter : ∀ b ∈ vain, (q.block b).reject < (p.block b).reject ↔
    (labels.length : Int) < (p.block b).reject
  /-- and it goes up if and only if the block was known to have no room for fewer children. -/
  looser : ∀ b < p.blocksInUse, (p.block b).reject < (q.block b).reject ↔
    b ∈ vain ∧ (p.block b).reject < labels.length
  /-- The bounds for numbers of free slots do not go up. -/
  table : ∀ k, 1 ≤ k → k ≤ blockSize → q.reject k ≤ p.reject k

variable {c : Config} {p q : Pool} {b n : Nat} {d : Demand} {ds : List Demand} {labels : List UInt8}

theorem WellKept.reject_placeFor_le (h : p.WellKept c) (labels : List UInt8) {k : Nat} (hpos : 1 ≤ k)
    (hk : k ≤ blockSize) : (p.placeFor c labels).1.reject k ≤ p.reject k := by
  have hbound := h.bound k hpos hk
  have hR : p = p ∧ 0 ≤ p.reject k ∧ p.reject k ≤ p.reject k := ⟨rfl, by omega, le_rfl⟩
  exact ((lockstep_reject c k (p.reject k)).placeFor hR labels).1.2.2

/-- **What blocks learn from a search in vain.** -/
theorem WellKept.learns (h : p.WellKept c) (hlabels : labels.Nodup) (h2 : 2 ≤ labels.length) :
    ∃ vain rest, p.Learns labels vain rest (p.placeFor c labels).1 := by
  obtain ⟨vain, rest, hplaces⟩ := h.places hlabels h2
  have hlt : ∀ b ∈ vain, b < p.blocksInUse := fun b hb =>
    (h.onRing_iff.mp (hplaces.ring.onRing_iff.mpr (List.mem_append_left _ hb))).2.1
  have hbound := hplaces.rejects
  refine ⟨vain, rest, hplaces.ring, hplaces.inVain, fun b hb => (hplaces.found b hb).1, hbound,
    fun b hb => ?_, fun b hb => ?_, fun k hpos hk => h.reject_placeFor_le labels hpos hk⟩
  · rw [hbound b (hlt b hb), if_pos hb]
  · rw [hbound b hb]
    split_ifs with hvain
    · simp [hvain]
    · simp [hvain]

/-! ### Runs of demands -/

/-- No block goes out of use. -/
theorem WellKept.blocksInUse_serve_le (h : p.WellKept c) (hd : p.Fair d) :
    p.blocksInUse ≤ (p.serve c d).blocksInUse := by
  have hsize : p.size ≤ (p.serve c d).size := by
    cases d with
    | single =>
      obtain ⟨heq, -⟩ | ⟨heq, -⟩ := placeOne_cases c p
      · exact (congrArg Pool.size heq).ge
      · have hadded : (p.addBlock c).1.size = p.size + blockSize := size_addBlock c p
        exact (Nat.le_add_right ..).trans_eq (hadded.symm.trans (congrArg Pool.size heq).symm)
    | several labels =>
      obtain ⟨vain, rest, hplaces⟩ := h.places hd.1 hd.2
      obtain hsize | ⟨hsize, -⟩ := hplaces.added.1
      · exact hsize.ge
      · exact (Nat.le_add_right ..).trans_eq hsize.symm
    | take e label n => exact (size_occupy ..).ge
    | give e => exact (size_release ..).ge
    | write e f => exact le_rfl
  exact Nat.div_le_div_right hsize

/-- **A demand** that gives no slot of a block back raises the bound of the block to no more than the
number of children it asks for. -/
theorem WellKept.reject_serve_le (h : p.WellKept c) (hd : p.Fair d) (hb : b < p.blocksInUse)
    (hgive : ∀ e, d = .give e → blockOf e ≠ b) :
    ((p.serve c d).block b).reject ≤ max (p.block b).reject d.children := by
  refine le_max_iff.mpr ?_
  cases d with
  | single =>
    have hacc := h.account_addBlock b
    rw [if_neg hb.ne] at hacc
    left
    obtain ⟨heq, -⟩ | ⟨heq, -⟩ := placeOne_cases c p
    · exact le_of_eq (congrArg (fun q => (Pool.block q b).reject) heq)
    · exact le_of_eq ((congrArg (fun q => (Pool.block q b).reject) heq).trans
        (Block.account_eq_iff.mp hacc).2.1)
  | several labels =>
    obtain ⟨vain, rest, hlearns⟩ := h.learns hd.1 hd.2
    have hbound := hlearns.bound b hb
    split_ifs at hbound
    · exact .inr hbound.le
    · exact .inl hbound.le
  | take e label n =>
    have hblock := block_unlinkFree (h.lt_size_blocks (h.blockOf_lt.mpr hd.2.1)) b
    have hacc := (Block.account_eq_iff.mp (account_take c p e b)).2.1
    refine .inl (le_of_eq (hacc.trans ?_))
    rw [hblock]
    split_ifs <;> rfl
  | give e =>
    obtain ⟨-, s, hs⟩ := hd
    have hacc := (h.within_release (c := c) hs).account b (hgive e rfl).symm
    exact .inl (Block.account_eq_iff.mp hacc).2.1.le
  | write e f => exact .inl le_rfl

/-- **The bound of a block over a run of demands** in which no slot of the block is given back is at
most what it was, or the largest number of children that room was searched for. -/
theorem Serves.reject_le (hserves : p.Serves c ds q) (h : p.WellKept c) (hb : b < p.blocksInUse)
    (hgive : ∀ e, .give e ∈ ds → blockOf e ≠ b) (hn : ∀ d ∈ ds, d.children ≤ n) :
    (q.block b).reject ≤ max (p.block b).reject n := by
  induction hserves with
  | done => exact le_max_left _ _
  | @next p q d ds hd _ ih =>
    obtain ⟨hdn, hn⟩ := List.forall_mem_cons.mp hn
    have hstep := h.reject_serve_le hd hb fun e he => hgive e (he ▸ List.mem_cons_self)
    have hrest := ih (h.serve hd) (hb.trans_le (h.blocksInUse_serve_le hd))
      (fun e he => hgive e (List.mem_cons_of_mem d he)) hn
    omega

end Pool

/-! ### The pools that arise in a trie -/

namespace Trie

variable {o : Options} {e : Encoding} {t : Trie} {p : Pool} {labels : List UInt8}

/-- **The bounds of blocks after a search for room**, in every pool that arises in a trie. A block that
was visited in vain ends with the number of children as its bound, which is lower than before if the
block was worth a search by its bound, and higher if it was turned down since fewer children had no
room; the other blocks keep their bounds. Until a slot of a block is given back its bound does not
rise, provided that no search asks for more children than the bound. -/
theorem learns_run (hcreate : Trie.create e o = .ok t) (hp : t.Arises p) (hlabels : labels.Nodup)
    (h2 : 2 ≤ labels.length) :
    (∃ vain rest, p.Learns labels vain rest (p.placeFor t.config labels).1) ∧
    ∀ b < p.blocksInUse, ∀ ds q, p.Serves t.config ds q → (∀ i, .give i ∈ ds → Pool.blockOf i ≠ b) →
      (∀ d ∈ ds, (d.children : Int) ≤ (p.block b).reject) →
        (q.block b).reject ≤ (p.block b).reject := by
  have hkept := hp.kept hcreate
  refine ⟨hkept.learns hlabels h2, fun b hb ds q hserves hgive hds => ?_⟩
  have hpos := (hkept.reject b hb).1
  have hle := hserves.reject_le (n := (p.block b).reject.toNat) hkept hb hgive fun d hd => by
    have := hds d hd
    omega
  omega

/-- Two children, in a trie with one key. -/
theorem learns_run_reduced : ∃ t, Trie.create .reduced { maxTrial := 10 } = .ok t ∧
    let p := (t.run [.insert [97, 98] 1]).1.pool
    t.Arises p ∧ (∃ vain rest, p.Learns [98, 99] vain rest (p.placeFor t.config [98, 99]).1) ∧
      ∀ b < p.blocksInUse, ∀ ds q, p.Serves t.config ds q →
        (∀ i, .give i ∈ ds → Pool.blockOf i ≠ b) →
          (∀ d ∈ ds, (d.children : Int) ≤ (p.block b).reject) →
            (q.block b).reject ≤ (p.block b).reject := by
  have hcreate := (create_eq (o := { maxTrial := 10 }) rfl .reduced).1
  have hp := (ComesTo.rest [.insert [97, 98] 1]).arises
    (t := Trie.empty { maxTrial := 10, encoding := .reduced })
  exact ⟨_, hcreate, hp, learns_run hcreate hp (by decide) (by decide)⟩

end Trie

end DoubleArrayTrie
