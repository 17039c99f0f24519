import DoubleArrayTrie.Proofs.Safety

/-!
# How the arrays grow does not matter

A program never asks how large the arrays are. So two tries whose options differ in nothing but their
growth go through the same accesses and get the same replies: up to the slots and blocks that are not
in use yet their pools are the same at all times.

* `Pool.Twins`: pools that are the same but for their capacity.
* `Pool.Tidy`: what is not in use is as it was made, and the capacity went up in steps.
* `Twins.run`: a program that runs on both does the same on both.
* `Trie.growth_run`: so it is with any calls on new tries.
-/

namespace DoubleArrayTrie

/-- From the first number to the last in these steps: each leads on from the one before, upwards and
to at most the double. -/
inductive Rises : Nat → List (Nat × Nat) → Nat → Prop
  | nil (n : Nat) : Rises n [] n
  | snoc {n m m' : Nat} {steps : List (Nat × Nat)} (h : Rises n steps m) (hlt : m < m')
      (hle : m' ≤ 2 * m) : Rises n (steps ++ [(m, m')]) m'

namespace Pool

variable {c d : Config} {p q p' q' : Pool}

/-- The growths in the journal, each with the capacity before and after it. -/
def growths (p : Pool) : List (Nat × Nat) := p.journal.toList.filterMap Event.growth?

/-- The arrays have whole blocks, what is not in use is as it was made, and the capacity has risen from
that of one block by the growths in the journal. -/
structure Tidy (p : Pool) : Prop where
  size_pos : blockSize ≤ p.size
  size_dvd : blockSize ∣ p.size
  size_le : p.size ≤ p.capacity
  capacity_dvd : blockSize ∣ p.capacity
  size_blocks : p.blocks.size = p.capacity / blockSize
  slot : ∀ i, p.size ≤ i → p.slot i = {}
  block : ∀ b, p.blocksInUse ≤ b → p.block b = {}
  rises : Rises blockSize p.growths p.capacity

/-- The pools are the same but for what is not in use, and for where the records live and what the
journals say. -/
structure Twins (p q : Pool) : Prop where
  size : p.size = q.size
  head : ∀ r, p.head r = q.head r
  rejects : p.rejects = q.rejects
  slot : ∀ i < p.size, p.slot i = q.slot i
  block : ∀ b < p.blocksInUse, p.block b = q.block b

/-! ### The journal -/

theorem growths_log (p : Pool) (event : Event) :
    (p.log event).growths = p.growths ++ event.growth?.toList := by
  unfold growths log
  dsimp only
  rw [Array.toList_push, List.filterMap_append]
  cases h : event.growth? <;> simp [h]

theorem growths_unmap (p : Pool) (part : Part) : (p.unmap part).growths = p.growths := by
  have hlog : (p.log (.unmap part (p.byteSize part))).growths = p.growths := by
    rw [growths_log]
    simp [Event.growth?]
  unfold unmap
  split_ifs
  · cases part <;> exact hlog
  · rfl

theorem growths_grow (c : Config) (p : Pool) : (p.grow c).growths =
    p.growths ++ [(p.capacity, p.capacity + c.growth.step p.capacity)] := by
  have hunmap : ∀ q : Pool, ([Part.nodes, .links, .blocks].foldl unmap q).growths = q.growths := by
    simp only [List.foldl_cons, List.foldl_nil, growths_unmap, implies_true]
  exact (hunmap _).trans (growths_log ..)

/-! ### One access -/

theorem Tidy.grow (hc : c.fault? = none) (h : p.Tidy) : (p.grow c).Tidy := by
  obtain ⟨hstep, hdvd⟩ := step_growth hc (h.size_pos.trans h.size_le) h.capacity_dvd
  refine ⟨?_, ?_, ?_, ?_, ?_, fun i hi => ?_, fun b hb => ?_, ?_⟩
  · rw [size_grow]
    exact h.size_pos
  · rw [size_grow]
    exact h.size_dvd
  · rw [size_grow, capacity_grow]
    exact h.size_le.trans (Nat.le_add_right ..)
  · rw [capacity_grow]
    exact Nat.dvd_add h.capacity_dvd hdvd
  · have hblocks := h.size_blocks
    have hwhole := h.capacity_dvd
    rw [size_blocks_grow, capacity_grow]
    unfold blockSize at *
    omega
  · rw [size_grow] at hi
    rw [slot_grow, h.slot i hi]
  · rw [blocksInUse, size_grow] at hb
    rw [block_grow, h.block b hb]
  · have hle := Growth.step_le c.growth p.capacity
    rw [growths_grow, capacity_grow]
    unfold blockSize at hstep
    exact h.rises.snoc (by omega) (by omega)

/-- A change to what is in use leaves the pool tidy. -/
theorem Tidy.congr (h : p.Tidy) (hsize : q.size = p.size) (hcapacity : q.capacity = p.capacity)
    (hblocks : q.blocks.size = p.blocks.size) (hgrowths : q.growths = p.growths)
    (hslot : ∀ i, p.size ≤ i → q.slot i = p.slot i)
    (hblock : ∀ b, p.blocksInUse ≤ b → q.block b = p.block b) : q.Tidy := by
  have huse : q.blocksInUse = p.blocksInUse := congrArg (· / blockSize) hsize
  refine ⟨?_, ?_, ?_, ?_, ?_, fun i hi => ?_, fun b hb => ?_, ?_⟩
  · rw [hsize]
    exact h.size_pos
  · rw [hsize]
    exact h.size_dvd
  · rw [hsize, hcapacity]
    exact h.size_le
  · rw [hcapacity]
    exact h.capacity_dvd
  · rw [hblocks, hcapacity]
    exact h.size_blocks
  · rw [hsize] at hi
    rw [hslot i hi, h.slot i hi]
  · rw [huse] at hb
    rw [hblock b hb, h.block b hb]
  · rw [hgrowths, hcapacity]
    exact h.rises

/-- One more block is as good as it was made when it comes into use. -/
theorem Tidy.extend (h : p.Tidy) (hroom : p.size + blockSize ≤ p.capacity) : p.extend.Tidy :=
  ⟨h.size_pos.trans (Nat.le_add_right ..), Nat.dvd_add h.size_dvd dvd_rfl, hroom,
    h.capacity_dvd, h.size_blocks, fun i hi => h.slot i ((Nat.le_add_right ..).trans hi),
    fun b hb => h.block b (le_trans (Nat.div_le_div_right (Nat.le_add_right ..)) hb), h.rises⟩

/-- **An access that is allowed** leaves what is not in use. -/
theorem Tidy.access (hc : c.fault? = none) (h : p.Tidy) {x : Access} (hx : x.Allowed c p) :
    (x.effect c p).Tidy := by
  cases x with
  | slot | block | bound | head | size | member => exact h
  | writeSlot i w =>
    refine h.congr rfl (capacity_modifySlot ..) rfl rfl (fun j hj => ?_) fun _ _ => rfl
    have hi : i ≠ j := (hx.1.trans_le hj).ne
    show (p.modifySlot i w.apply).slot j = p.slot j
    rw [slot_modifySlot, if_neg fun hc => hi hc.1]
  | writeBlock b w =>
    refine h.congr rfl rfl (size_blocks_modifyBlock ..) rfl (fun _ _ => rfl) fun d hd => ?_
    have hb : b ≠ d := (hx.1.trans_le hd).ne
    show (p.modifyBlock b w.apply).block d = p.block d
    rw [block_modifyBlock, if_neg fun hc => hb hc.1]
  | writeBound n y => exact h.congr rfl rfl rfl rfl (fun _ _ => rfl) fun _ _ => rfl
  | writeHead r b => cases r <;> exact h.congr rfl rfl rfl rfl (fun _ _ => rfl) fun _ _ => rfl
  | reserve =>
    unfold Access.effect
    dsimp only
    split_ifs
    · exact h.grow hc
    · exact h
  | log event =>
    refine h.congr rfl rfl rfl ?_ (fun _ _ => rfl) fun _ _ => rfl
    have hevent : event.growth? = none := hx
    show (p.log event).growths = p.growths
    rw [growths_log, hevent]
    simp

theorem Tidy.blocksInUse_le (h : p.Tidy) : p.blocksInUse ≤ p.blocks.size := by
  rw [h.size_blocks]
  exact Nat.div_le_div_right h.size_le

theorem Twins.blocksInUse (h : p.Twins q) : p.blocksInUse = q.blocksInUse :=
  congrArg (· / blockSize) h.size

theorem Twins.reply_eq (h : p.Twins q) {x : Access} (hx : x.Allowed c p) :
    x.reply p = x.reply q := by
  cases x with
  | slot i => exact h.slot i hx
  | block b => exact h.block b hx
  | bound n =>
    show p.rejects.getD n 0 = q.rejects.getD n 0
    rw [h.rejects]
  | head r => exact h.head r
  | size => exact h.size
  | writeSlot | writeBlock | writeBound | writeHead | reserve | log | member => rfl

theorem Twins.grow (h : p.Twins q) (c : Config) : (p.grow c).Twins q := by
  obtain ⟨backing, journal, hgrow⟩ := grow_eq c p
  refine ⟨?_, fun r => ?_, ?_, fun i hi => ?_, fun b hb => ?_⟩
  · rw [size_grow]
    exact h.size
  · rw [← h.head r, hgrow]
    cases r <;> rfl
  · rw [hgrow]
    exact h.rejects
  · rw [size_grow] at hi
    rw [slot_grow]
    exact h.slot i hi
  · rw [Pool.blocksInUse, size_grow] at hb
    rw [block_grow]
    exact h.block b hb

/-- One more block is the same in both pools, since nothing has been done to it. -/
theorem Twins.extend (h : p.Twins q) (hp : p.Tidy) (hq : q.Tidy) : p.extend.Twins q.extend := by
  refine ⟨congrArg (· + blockSize) h.size, fun r => ?_, h.rejects, fun i _ => ?_, fun b _ => ?_⟩
  · rw [head_extend, head_extend, h.head r]
  · show p.slot i = q.slot i
    by_cases hi : i < p.size
    · exact h.slot i hi
    · rw [hp.slot i (not_lt.mp hi), hq.slot i (by rw [← h.size]; exact not_lt.mp hi)]
  · show p.block b = q.block b
    by_cases hb : b < p.blocksInUse
    · exact h.block b hb
    · rw [hp.block b (not_lt.mp hb), hq.block b (by rw [← h.blocksInUse]; exact not_lt.mp hb)]

theorem Twins.symm (h : p.Twins q) : q.Twins p where
  size := h.size.symm
  head r := (h.head r).symm
  rejects := h.rejects.symm
  slot i hi := (h.slot i (by rwa [h.size])).symm
  block b hb := (h.block b (by rwa [h.blocksInUse])).symm

/-- **An access does the same to both pools.** -/
theorem Twins.access (h : p.Twins q) (hp : p.Tidy) (hq : q.Tidy) (c d : Config) (x : Access) :
    (x.effect c p).Twins (x.effect d q) := by
  cases x with
  | slot | block | bound | head | size | member => exact h
  | writeSlot i w =>
    refine ⟨h.size, h.head, h.rejects, fun j hj => ?_, h.block⟩
    have hj' : j < p.size := hj
    have hcap := hp.size_le
    have hcap' := hq.size_le
    have hsize := h.size
    show (p.modifySlot i w.apply).slot j = (q.modifySlot i w.apply).slot j
    rw [slot_modifySlot, slot_modifySlot, h.slot j hj]
    exact if_congr (and_congr_right fun _ => by omega) rfl rfl
  | writeBlock b w =>
    refine ⟨h.size, h.head, h.rejects, h.slot, fun j hj => ?_⟩
    have hj' : j < p.blocksInUse := hj
    have hcap := hp.blocksInUse_le
    have hcap' := hq.blocksInUse_le
    have huse := h.blocksInUse
    show (p.modifyBlock b w.apply).block j = (q.modifyBlock b w.apply).block j
    rw [block_modifyBlock, block_modifyBlock, h.block j hj]
    exact if_congr (and_congr_right fun _ => by omega) rfl rfl
  | writeBound n y =>
    exact ⟨h.size, h.head, congrArg (·.setIfInBounds n y) h.rejects, h.slot, h.block⟩
  | writeHead r b =>
    have hheads : ∀ s, (p.setHead r b).head s = (q.setHead r b).head s := fun s => by
      rw [head_setHead, head_setHead, h.head s]
    cases r <;> exact ⟨h.size, hheads, h.rejects, h.slot, h.block⟩
  | reserve =>
    unfold Access.effect
    dsimp only
    split_ifs
    · exact ((h.grow c).symm.grow d).symm
    · exact h.grow c
    · exact (h.symm.grow d).symm
    · exact h
  | log event => exact ⟨h.size, h.head, h.rejects, h.slot, h.block⟩

/-! ### Programs -/

variable {α : Type} {x : Program α} {a b : α}

theorem Tidy.run (hc : c.fault? = none) (h : p.Tidy) (hx : x.run c p = some (p', a)) :
    p'.Tidy :=
  Program.run_kept (fun h hallowed => h.access hc hallowed) Tidy.extend hx h

/-- What is done to a block that is opened is the same in both pools. -/
theorem Twins.runOpening (hc : c.fault? = none) (hd : d.fault? = none) {body : Opening}
    (h : p.extend.Twins q.extend) (hp : p.extend.Tidy) (hq : q.extend.Tidy)
    (hx : body.run c p = some p') (hy : body.run d q = some q') : p'.extend.Twins q'.extend := by
  induction body generalizing p q with
  | done =>
    obtain rfl := Option.some.inj hx
    obtain rfl := Option.some.inj hy
    exact h
  | access x next ih =>
    rw [Opening.run] at hx hy
    split_ifs at hx hy with hopens hopens'
    obtain ⟨hlocal, hallowed⟩ := Access.opens_iff.mp hopens
    obtain ⟨-, hallowed'⟩ := Access.opens_iff.mp hopens'
    have htwins := h.access hp hq c d x
    have htidy := hp.access hc hallowed
    have htidy' := hq.access hd hallowed'
    rw [hlocal.effect_extend, hlocal.effect_extend] at htwins
    rw [hlocal.effect_extend] at htidy htidy'
    rw [← hlocal.reply_extend q, ← h.reply_eq hallowed, hlocal.reply_extend] at hy
    exact ih _ htwins htidy htidy' hx hy
  | fault => simp [Opening.run] at hx

/-- **A program that runs on both pools** gives the same result, and leaves pools that are the same. -/
theorem Twins.run (hc : c.fault? = none) (hd : d.fault? = none) (h : p.Twins q) (hp : p.Tidy)
    (hq : q.Tidy) (hx : x.run c p = some (p', a)) (hy : x.run d q = some (q', b)) :
    a = b ∧ p'.Twins q' := by
  induction x generalizing p q with
  | done a =>
    obtain ⟨rfl, rfl⟩ := Prod.mk.inj (Option.some.inj hx)
    obtain ⟨rfl, rfl⟩ := Prod.mk.inj (Option.some.inj hy)
    exact ⟨rfl, h⟩
  | access x next ih =>
    rw [Program.run] at hx hy
    split_ifs at hx hy with hallowed hallowed'
    rw [← h.reply_eq hallowed] at hy
    exact ih _ (h.access hp hq c d x) (hp.access hc hallowed) (hq.access hd hallowed') hx hy
  | opening body next ih =>
    rw [Program.run] at hx hy
    split_ifs at hx hy with hroom hroom'
    cases hbody : body.run c p with
    | none => simp [hbody] at hx
    | some r =>
      cases hbody' : body.run d q with
      | none => simp [hbody'] at hy
      | some r' =>
        rw [hbody] at hx
        rw [hbody'] at hy
        have hp' := hp.extend hroom
        have hq' := hq.extend hroom'
        exact ih ((h.extend hp hq).runOpening hc hd hp' hq' hbody hbody')
          (body.run_kept (fun h hallowed => h.access hc hallowed) hbody hp')
          (body.run_kept (fun h hallowed => h.access hd hallowed) hbody' hq') hx hy
  | fault => simp [Program.run] at hx

/-! ### New pools -/

theorem tidy_empty (raw : Int) : (Pool.empty raw).Tidy := by
  have hblocks : (Pool.empty raw).blocks.size = 1 := by
    unfold Pool.empty
    simp [setNode]
  have hjournal : (Pool.empty raw).growths = [] := by
    unfold growths Pool.empty
    dsimp only
    rw [threadFree_eq]
    rfl
  refine ⟨by simp, by simp, by simp, by simp, by simp [hblocks, blockSize], fun i hi => ?_,
    fun b hb => ?_, ?_⟩
  · rw [size_empty] at hi
    unfold blockSize at hi
    rw [slot_empty, if_neg (by omega), if_neg (by omega)]
  · rw [Pool.blocksInUse, size_empty] at hb
    unfold blockSize at hb
    rw [block_empty, if_neg (by omega)]
  · rw [hjournal, capacity_empty]
    exact .nil _

theorem Twins.refl (p : Pool) : p.Twins p := ⟨rfl, fun _ => rfl, rfl, fun _ _ => rfl, fun _ _ => rfl⟩

end Pool

/-! ### Calls -/

namespace Trie

variable {t u : Trie} {M N : Entries}

theorem tidy_empty (c : Config) : (Trie.empty c).pool.Tidy := by
  rw [pool_empty]
  exact Pool.tidy_empty _

/-- New tries of one encoding have the same pool. -/
theorem twins_empty {c d : Config} (h : c.encoding = d.encoding) :
    (Trie.empty c).pool.Twins (Trie.empty d).pool := by
  rw [pool_empty, pool_empty, h]
  exact Pool.Twins.refl _

/-- Calls on tries that are the same but for their growth return the same, and leave such tries. -/
theorem twins_run (ht : t.Holds M) (hu : u.Holds N) (hready : t.pool.Ready t.config)
    (hready' : u.pool.Ready u.config) (hmax : t.config.maxTrial ≤ 2147483647)
    (hrules : t.config.rules = u.config.rules) (htidy : t.pool.Tidy) (htidy' : u.pool.Tidy)
    (htwins : t.pool.Twins u.pool) {calls : List Call}
    (hcap : (t.run calls).1.pool.capacity ≤ Access.maxCapacity)
    (hcap' : (u.run calls).1.pool.capacity ≤ Access.maxCapacity) :
    (t.run calls).2 = (u.run calls).2 ∧ (t.run calls).1.pool.Twins (u.run calls).1.pool ∧
      (t.run calls).1.pool.Tidy ∧ (u.run calls).1.pool.Tidy := by
  have hmax' : u.config.maxTrial ≤ 2147483647 := by
    rwa [← show t.config.maxTrial = u.config.maxTrial from congrArg Rules.maxTrial hrules]
  have hrun := (gives_performAll ht hready hmax calls).run hcap
  have hrun' := (gives_performAll hu hready' hmax' calls).run hcap'
  rw [← hrules] at hrun'
  obtain ⟨hanswers, htwins'⟩ := htwins.run ht.kept.valid hu.kept.valid htidy htidy' hrun hrun'
  exact ⟨hanswers, htwins', htidy.run ht.kept.valid hrun, htidy'.run hu.kept.valid hrun'⟩

/-- **Growth affects nothing but the capacity.** Two new tries whose valid options differ in their
growth return the same on any calls, and their pools stay the same up to what is not in use, which
stays as it was made. Each growth makes the arrays larger by whole blocks, to at most the double. -/
theorem growth_run {e : Encoding} {o : Options} {g : Growth} (ht : create e o = .ok t)
    (hu : create e { o with growth := g } = .ok u) (hmax : o.maxTrial ≤ 2147483647)
    (calls : List Call) (hcap : (t.run calls).1.pool.capacity ≤ Access.maxCapacity)
    (hcap' : (u.run calls).1.pool.capacity ≤ Access.maxCapacity) :
    (t.run calls).2 = (u.run calls).2 ∧ (t.run calls).1.pool.Twins (u.run calls).1.pool ∧
      (t.run calls).1.pool.Tidy ∧ (u.run calls).1.pool.Tidy := by
  obtain ⟨ho, rfl⟩ := validate_of_create ht
  obtain ⟨ho', rfl⟩ := validate_of_create hu
  exact twins_run (t := Trie.empty { o with encoding := e })
    (u := Trie.empty { o with growth := g, encoding := e }) (holds_empty (create_eq ho e).2)
    (holds_empty (create_eq ho' e).2) (ready_empty _) (ready_empty _) hmax rfl (tidy_empty _)
    (tidy_empty _) (twins_empty rfl) hcap hcap'

/-- Keys are stored and erased in a trie whose arrays double, and in one whose arrays grow by single
blocks. In both they have to grow. -/
theorem growth_run_linear : ∃ t u, create .reduced {} = .ok t ∧
    create .reduced { growth := .linear 1 } = .ok u ∧
    ∃ calls, calls = [.insert [97, 98] 1, .insert [97, 99, 100] 2, .erase [97, 98]] ∧
      blockSize < (t.run calls).1.pool.capacity ∧ blockSize < (u.run calls).1.pool.capacity ∧
      (t.run calls).1.pool.capacity ≤ Access.maxCapacity ∧
      (u.run calls).1.pool.capacity ≤ Access.maxCapacity ∧
      (t.run calls).2 = (u.run calls).2 ∧ (t.run calls).1.pool.Twins (u.run calls).1.pool ∧
      (t.run calls).1.pool.Tidy ∧ (u.run calls).1.pool.Tidy := by
  have ht := (create_eq (o := {}) rfl .reduced).1
  have hu := (create_eq (o := { growth := .linear 1 }) rfl .reduced).1
  have hcap := (capacity_run_of_create ht [.insert [97, 98] 1, .insert [97, 99, 100] 2,
    .erase [97, 98]]).trans (show _ ≤ Access.maxCapacity by decide)
  have hcap' := (capacity_run_of_create hu [.insert [97, 98] 1, .insert [97, 99, 100] 2,
    .erase [97, 98]]).trans (show _ ≤ Access.maxCapacity by decide)
  exact ⟨_, _, ht, hu, _, rfl,
    blockSize_lt_capacity_run ht [97, 99, 100] (by decide) (by decide),
    blockSize_lt_capacity_run hu [97, 99, 100] (by decide) (by decide), hcap, hcap',
    growth_run (o := {}) (g := .linear 1) ht hu (by decide) _ hcap hcap'⟩

end Trie

end DoubleArrayTrie
