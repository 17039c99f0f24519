import DoubleArrayTrie.Proofs.Allocation
import DoubleArrayTrie.Proofs.Conflicts
import DoubleArrayTrie.Proofs.Footprint
import DoubleArrayTrie.Proofs.Programs.Place

/-!
# Where children find room

Two or more children of one node need slots at one offset, which are found in a block of the open ring
or else in a new block. The blocks that are searched in vain pay for it with a trial, and those that
have had as many as are allowed leave the ring while the search goes on along it. Nothing else is
touched, besides the slot where searches of the block with room start.

* `Pool.HasRoom`: when a block is good for the children.
* `Pool.Places`: what finding room comes to, and what it leaves behind.
* `Pool.WellKept.places`: this is so in every pool whose books are in order.
* `Trie.places_run`: in particular in all pools that come up in a trie.
-/

namespace DoubleArrayTrie

namespace Pool

/-! ### Room -/

/-- Children with these labels have room in block `b`: -/
structure HasRoom (p : Pool) (labels : List UInt8) (b : Nat) : Prop where
  /-- The block has free slots enough, -/
  free : (labels.length : Int) ≤ (p.block b).free
  /-- it is not known to have no room for so many children, -/
  reject : (labels.length : Int) < (p.block b).reject
  /-- and at one of its free slots all labels fit. -/
  fits : ∃ e ∈ p.freeList b, ∀ x ∈ labels, p.Free ((e ^^^ (labels.headD 0).toNat) ^^^ x.toNat)

/-- What finding room for children with these labels comes to: the pool is `q` then, and `e` is the
slot for the first label. The blocks of the open ring are those that were searched in `vain` and the
`rest` of them. -/
structure Places (c : Config) (p : Pool) (labels : List UInt8) (vain rest : List Nat) (q : Pool)
    (e : Nat) : Prop where
  /-- The blocks were searched along the ring from its head on. -/
  ring : p.IsRing .opened (vain ++ rest)
  /-- Those that were searched in vain have no room. -/
  inVain : ∀ b ∈ vain, ¬ p.HasRoom labels b
  /-- The one after them has it: the slot is the first one on its free list at which the labels fit. -/
  found : ∀ b ∈ rest.head?, p.HasRoom labels b ∧
    (p.freeList b).find? (fun e => p.fits e labels) = some e
  /-- The search along a free list ends after as many slots as it has, -/
  scan : ∀ b ∈ vain ++ rest, ∀ n, (p.freeList b).length ≤ n →
    p.scanFree labels (p.block b).head.toNat n (p.block b).head.toNat =
      (p.freeList b).find? fun e => p.fits e labels
  /-- and the one along the ring after as many blocks as it has: those that have no room learn, one
  after the other, and the one with room is entered at the slot from then on. -/
  search : vain ++ rest ≠ [] → ∀ n, (vain ++ rest).length ≤ n →
    p.searchOpen c labels (p.block p.openHead).prev n p.openHead =
      rest.head?.elim (p.learnAll c labels.length vain, none) fun b =>
        ((p.learnAll c labels.length vain).modifyBlock b fun r => { r with head := e }, some e)
  /-- The slots for all labels are free, and in one block, which is not block `0`. -/
  room : q.Roomy labels e ∧
    ∀ x ∈ labels, blockOf ((e ^^^ (labels.headD 0).toNat) ^^^ x.toNat) = blockOf e
  /-- A new block comes into use if and only if no block of the open ring has room. -/
  added : (q.size = p.size ∨ q.size = p.size + blockSize ∧ e = p.size) ∧
    (q.size = p.size + blockSize ↔ ∀ b, p.OnRing .opened b → ¬ p.HasRoom labels b)
  /-- The blocks that were searched in vain have had one more trial, and the others have not. -/
  trials : ∀ b < p.blocksInUse, (q.block b).trials = (p.block b).trials + if b ∈ vain then 1 else 0
  /-- They are known to have no room for so many children. -/
  rejects : ∀ b < p.blocksInUse, (q.block b).reject =
    if b ∈ vain then (labels.length : Int) else (p.block b).reject
  /-- They are closed if and only if that was the last trial that is allowed. -/
  closed : ∀ b, q.OnRing .closed b ↔
    p.OnRing .closed b ∨ b ∈ vain ∧ (p.block b).trials + 1 = c.maxTrial
  /-- No other block leaves the open ring, and none but a new one joins it. -/
  opened : ∀ b, q.OnRing .opened b ↔
    p.OnRing .opened b ∧ ¬ (b ∈ vain ∧ (p.block b).trials + 1 = c.maxTrial) ∨
      p.blocksInUse ≤ b ∧ b < q.blocksInUse
  full : ∀ b, q.OnRing .full b ↔ p.OnRing .full b
  /-- All slots stay as they are, but for those of a new block. -/
  slot : ∀ i, i < p.size ∨ q.size ≤ i → q.slot i = p.slot i
  /-- No block that was in use loses or gets a free slot. -/
  free : ∀ b < p.blocksInUse, (q.block b).free = (p.block b).free ∧
    ∀ i, i ∈ q.freeList b ↔ i ∈ p.freeList b

variable {c : Config} {p q : Pool} {b e n : Nat} {l vain rest : List Nat} {labels : List UInt8}

/-- A block of the open ring has room if something is found in it. -/
theorem WellKept.hasRoom_iff (h : p.WellKept c) (hb : p.OnOpen c b) (hlabels : labels ≠ []) :
    p.HasRoom labels b ↔ (p.room? b labels).isSome := by
  obtain ⟨l, hl⟩ := h.freeLists b hb.2.1
  have hfree := hl.free_eq
  -- at a free slot of the block the labels fit if all their slots are free
  have hfits : ∀ e ∈ l, p.fits e labels = true ↔
      ∀ x ∈ labels, p.Free ((e ^^^ (labels.headD 0).toNat) ^^^ x.toNat) := by
    intro e he
    obtain ⟨hfree, heb⟩ := (hl.mem_iff e).mp he
    constructor
    · have hle : blockSize ≤ e := blockSize_le_iff.mpr (heb ▸ hb.1)
      exact fun hfits => (h.roomy_of_fits hfree hle hfits).all
    · intro hall
      rcases labels with _ | ⟨first, labels⟩
      · rfl
      · rw [fits, List.all_eq_true]
        exact fun x hx => decide_eq_true (hall x (List.mem_cons_of_mem first hx)).2.2
  rw [hl.room?_eq (h.length_freeList_le hl) hlabels]
  constructor
  · rintro ⟨hlen, hreject, e, he, hall⟩
    rw [hl.freeList_eq] at he
    rw [if_pos ⟨by omega, hreject⟩, List.find?_isSome]
    exact ⟨e, he, (hfits e he).mpr hall⟩
  · intro hsome
    split_ifs at hsome with hroom
    · obtain ⟨e, he, hfit⟩ := List.find?_isSome.mp hsome
      exact ⟨by omega, hroom.2, e, by rwa [hl.freeList_eq], (hfits e he).mp hfit⟩
    · simp at hsome

/-! ### What a search leaves behind -/

/-- Blocks have learned that `n` children have no room in them, and a new block may have come into
use. -/
structure Learned (c : Config) (p : Pool) (n : Nat) (vain : List Nat) (q : Pool) : Prop where
  kept : q.WellKept c
  size : q.size = p.size ∨ q.size = p.size + blockSize
  slot : ∀ i < p.size, q.slot i = p.slot i
  account : ∀ b < p.blocksInUse, (q.block b).free = (p.block b).free ∧
    (q.block b).reject = (if b ∈ vain then (n : Int) else (p.block b).reject) ∧
    (q.block b).trials = (p.block b).trials + if b ∈ vain then 1 else 0
  new : ∀ b, p.blocksInUse ≤ b → b < q.blocksInUse → (q.block b).ring c.maxTrial = .opened

namespace Learned

theorem of_learnAll (h : p.WellKept c) (h2 : 2 ≤ n) (hn : n ≤ blockSize) (hnodup : vain.Nodup)
    (hvain : ∀ b ∈ vain, p.OnOpen c b) : p.Learned c n vain (p.learnAll c n vain) where
  kept := h.learnAll h2 hn hnodup hvain
  size := .inl (size_learnAll ..)
  slot i _ := by rw [slot_congr (slots_learnAll ..)]
  account b _ := by
    have hacc := account_learnAll (p := p) c n hnodup
      (fun b hb => h.lt_size_blocks (hvain b hb).2.1) b
    split_ifs at hacc ⊢
    · simp only [Block.account, Prod.mk.injEq] at hacc
      exact ⟨hacc.1, hacc.2.1, hacc.2.2.1⟩
    · obtain ⟨hfree, hreject, htrials, -⟩ := Block.account_eq_iff.mp hacc
      exact ⟨hfree, hreject, htrials.trans (Int.add_zero _).symm⟩
  new b hle hlt := by
    unfold blocksInUse at hle hlt
    rw [size_learnAll] at hlt
    omega

/-- Where searches of a block start is no business of its account. -/
theorem rehead (h : p.Learned c n vain q) (he : q.Free e) :
    p.Learned c n vain (q.modifyBlock (blockOf e) fun r => { r with head := e }) := by
  have hblock : ∀ b, ((q.modifyBlock (blockOf e) fun r => { r with head := e }).block b).free =
      (q.block b).free ∧ ((q.modifyBlock (blockOf e) fun r => { r with head := e }).block b).reject =
      (q.block b).reject ∧ ((q.modifyBlock (blockOf e) fun r => { r with head := e }).block b).trials =
      (q.block b).trials := fun b => by
    rw [block_modifyBlock]
    split_ifs <;> exact ⟨rfl, rfl, rfl⟩
  refine ⟨h.kept.rehead he, h.size, h.slot, fun b hb => ?_, fun b hle hlt => ?_⟩
  · obtain ⟨hfree, hreject, htrials⟩ := hblock b
    rw [hfree, hreject, htrials]
    exact h.account b hb
  · rw [Block.ring_congr (hblock b).1 (hblock b).2.2]
    exact h.new b hle hlt

theorem log (h : p.Learned c n vain q) (v : Event) : p.Learned c n vain (q.log v) :=
  ⟨h.kept.log v, h.size, h.slot, h.account, h.new⟩

/-- A new block is on the open ring. -/
theorem addBlock (h : p.Learned c n vain q) (hsize : q.size = p.size) :
    p.Learned c n vain (q.addBlock c).1 := by
  have hmax := h.kept.maxTrial_pos
  have huse : q.blocksInUse = p.blocksInUse := congrArg (· / blockSize) hsize
  have hsize' : (q.addBlock c).1.size = q.size + blockSize := size_addBlock c q
  have hacc := h.kept.account_addBlock
  refine ⟨h.kept.addBlock.1, .inr (by rw [hsize', hsize]), fun i hi => ?_, fun b hb => ?_,
    fun b hle hlt => ?_⟩
  · rw [h.kept.slot_addBlock (by omega), h.slot i hi]
  · have haccb := hacc b
    rw [if_neg (by omega)] at haccb
    obtain ⟨hfree, hreject, htrials, -⟩ := Block.account_eq_iff.mp haccb
    rw [hfree, hreject, htrials]
    exact h.account b hb
  · have hb : b = q.blocksInUse := by
      unfold blocksInUse blockSize at *
      omega
    have haccb := hacc b
    rw [if_pos hb] at haccb
    simp only [Block.account, Prod.mk.injEq] at haccb
    rw [Block.ring_eq_opened, haccb.1, haccb.2.2.1]
    omega

theorem blocksInUse_le (h : p.Learned c n vain q) : p.blocksInUse ≤ q.blocksInUse := by
  have hsize := h.size
  unfold blocksInUse
  exact Nat.div_le_div_right (by omega)

theorem ring_eq (h : p.Learned c n vain q) (hvain : ∀ b ∈ vain, p.OnOpen c b)
    (hb : b < p.blocksInUse) : (q.block b).ring c.maxTrial =
      if b ∈ vain ∧ (p.block b).trials + 1 = c.maxTrial then .closed
      else (p.block b).ring c.maxTrial := by
  obtain ⟨hfree, -, htrials⟩ := h.account b hb
  by_cases hbv : b ∈ vain
  · have hopen := (hvain b hbv).2.2
    obtain ⟨h0, h1, -⟩ := Block.ring_eq_opened.mp hopen
    rw [if_pos hbv] at htrials
    rw [hopen]
    unfold Block.ring
    simp only [hfree, htrials, h0, h1, hbv, if_false, false_or, true_and]
  · rw [if_neg hbv, Int.add_zero] at htrials
    rw [if_neg fun hc => hbv hc.1]
    exact Block.ring_congr hfree htrials

theorem onRing_iff (h : p.Learned c n vain q) (hp : p.WellKept c)
    (hvain : ∀ b ∈ vain, p.OnOpen c b) {r : Ring} : q.OnRing r b ↔
      (0 < b ∧ b < p.blocksInUse ∧
        (if b ∈ vain ∧ (p.block b).trials + 1 = c.maxTrial then .closed
          else (p.block b).ring c.maxTrial) = r) ∨
      p.blocksInUse ≤ b ∧ b < q.blocksInUse ∧ r = .opened := by
  have hpos : 0 < p.blocksInUse := Nat.div_pos hp.size_pos (by decide)
  have huse := h.blocksInUse_le
  rw [h.kept.onRing_iff]
  rcases lt_or_ge b p.blocksInUse with hlt | hge
  · rw [h.ring_eq hvain hlt]
    simp only [hlt, hlt.trans_le huse, not_le.mpr hlt, true_and, false_and, or_false]
  · simp only [hge, not_lt.mpr hge, true_and, false_and, and_false, false_or]
    constructor
    · rintro ⟨-, hlt, hring⟩
      exact ⟨hlt, hring.symm.trans (h.new b hge hlt)⟩
    · rintro ⟨hlt, rfl⟩
      exact ⟨hpos.trans_le hge, hlt, h.new b hge hlt⟩

/-- The blocks that have had their last trial are closed, -/
theorem closed_iff (h : p.Learned c n vain q) (hp : p.WellKept c)
    (hvain : ∀ b ∈ vain, p.OnOpen c b) (b : Nat) : q.OnRing .closed b ↔
      p.OnRing .closed b ∨ b ∈ vain ∧ (p.block b).trials + 1 = c.maxTrial := by
  rw [h.onRing_iff hp hvain, hp.onRing_iff]
  by_cases hlast : b ∈ vain ∧ (p.block b).trials + 1 = c.maxTrial
  · obtain ⟨hpos, hlt, -⟩ := hvain b hlast.1
    simp [hlast, hpos, hlt]
  · simp [hlast]

/-- and no longer open, -/
theorem opened_iff (h : p.Learned c n vain q) (hp : p.WellKept c)
    (hvain : ∀ b ∈ vain, p.OnOpen c b) (b : Nat) : q.OnRing .opened b ↔
      p.OnRing .opened b ∧ ¬ (b ∈ vain ∧ (p.block b).trials + 1 = c.maxTrial) ∨
        p.blocksInUse ≤ b ∧ b < q.blocksInUse := by
  rw [h.onRing_iff hp hvain, hp.onRing_iff]
  by_cases hlast : b ∈ vain ∧ (p.block b).trials + 1 = c.maxTrial <;> simp [hlast]

/-- and the full ones were not searched. -/
theorem full_iff (h : p.Learned c n vain q) (hp : p.WellKept c)
    (hvain : ∀ b ∈ vain, p.OnOpen c b) (b : Nat) : q.OnRing .full b ↔ p.OnRing .full b := by
  rw [h.onRing_iff hp hvain, hp.onRing_iff]
  by_cases hlast : b ∈ vain ∧ (p.block b).trials + 1 = c.maxTrial
  · simp [hlast, (hvain b hlast.1).2.2]
  · simp [hlast]

theorem slot_eq (h : p.Learned c n vain q) (hp : p.WellKept c) {i : Nat}
    (hi : i < p.size ∨ q.size ≤ i) : q.slot i = p.slot i := by
  rcases hi with hi | hi
  · exact h.slot i hi
  · have hsize := h.size
    rw [h.kept.unused.slot i hi, hp.unused.slot i (by omega)]

theorem mem_freeList_iff (h : p.Learned c n vain q) (hp : p.WellKept c) (hb : b < p.blocksInUse)
    (i : Nat) : i ∈ q.freeList b ↔ i ∈ p.freeList b := by
  rw [(h.kept.orderly.freeList b (hb.trans_le h.blocksInUse_le)).2.2, (hp.orderly.freeList b hb).2.2]
  refine and_congr_right fun _ => and_congr_right fun hib => ?_
  rw [h.slot i (hp.blockOf_lt.mp (hib ▸ hb))]

end Learned

/-! ### Finding room -/

theorem Roomy.congr (h : p.Roomy labels e) (hslot : q.slot = p.slot) (hsize : q.size = p.size) :
    q.Roomy labels e := by
  have hfree : ∀ i, p.Free i → q.Free i := fun i hi => by
    unfold Free
    rwa [hslot, hsize]
  exact ⟨h.le, hfree e h.free, fun x hx => hfree _ (h.all x hx)⟩

/-- What is found in a block is the first slot on its free list at which the labels fit. -/
theorem WellKept.find?_of_room? (h : p.WellKept c) (hb : b < p.blocksInUse) (hlabels : labels ≠ [])
    (hroom : p.room? b labels = some e) :
    (p.freeList b).find? (fun e => p.fits e labels) = some e := by
  obtain ⟨l, hl⟩ := h.freeLists b hb
  rw [hl.room?_eq (h.length_freeList_le hl) hlabels] at hroom
  split_ifs at hroom
  rwa [hl.freeList_eq]

/-- In an open block a search ends after as many slots as there are on its free list. -/
theorem WellKept.scanFree_eq (h : p.WellKept c) (hb : p.OnOpen c b) (hn : (p.freeList b).length ≤ n) :
    p.scanFree labels (p.block b).head.toNat n (p.block b).head.toNat =
      (p.freeList b).find? fun e => p.fits e labels := by
  obtain ⟨l, hl⟩ := h.freeLists b hb.2.1
  have hfree := (Block.ring_eq_opened.mp hb.2.2).1
  rw [hl.freeList_eq] at hn ⊢
  refine hl.scanFree_eq (fun hnil => hfree ?_) hn
  rw [hl.free_eq, hnil]
  rfl

/-- Where room is found in a block of the open ring, the block is entered there from then on. -/
theorem WellKept.found (h : p.WellKept c) (h2 : 2 ≤ labels.length) (hlen : labels.length ≤ blockSize)
    (hnodup : vain.Nodup) (hvain : ∀ b ∈ vain, p.OnOpen c b) (hb : p.OnOpen c b)
    (hroom : p.room? b labels = some e) :
    p.Learned c labels.length vain
      ((p.learnAll c labels.length vain).modifyBlock b fun r => { r with head := e }) ∧
    ((p.learnAll c labels.length vain).modifyBlock b fun r => { r with head := e }).Roomy labels e := by
  obtain ⟨l, hl⟩ := h.freeLists b hb.2.1
  obtain ⟨hel, hfits⟩ := room?_mem hl (List.ne_nil_of_length_pos (by omega)) hroom
  obtain ⟨hfree, rfl⟩ := (hl.mem_iff e).mp hel
  have hroomy := h.roomy_of_fits hfree (blockSize_le_iff.mpr hb.1) hfits
  have hroomy' : (p.learnAll c labels.length vain).Roomy labels e :=
    hroomy.congr (slot_congr (slots_learnAll ..)) (size_learnAll ..)
  exact ⟨(Learned.of_learnAll h h2 hlen hnodup hvain).rehead hroomy'.free, hroomy'.congr rfl rfl⟩

/-- Where none is found there is room at the start of a new block. -/
theorem Learned.added (h : p.Learned c n vain q) (hsize : q.size = p.size) (labels : List UInt8) :
    p.Learned c n vain (q.addBlock c).1 ∧ (q.addBlock c).1.Roomy labels (q.addBlock c).2 ∧
      (q.addBlock c).1.size = p.size + blockSize ∧ (q.addBlock c).2 = p.size :=
  ⟨h.addBlock hsize, h.kept.roomy_addBlock labels,
    (size_addBlock c q).trans (congrArg (· + blockSize) hsize), h.kept.addBlock.2.2.1.trans hsize⟩

/-- **The search for room** goes along the open ring up to a block in which room is found, and without
such a block a new one comes into use. -/
theorem WellKept.exists_search (h : p.WellKept c) (h2 : 2 ≤ labels.length)
    (hlen : labels.length ≤ blockSize) : ∃ vain rest q e, p.placeFor c labels = (q, e) ∧
      p.IsRing .opened (vain ++ rest) ∧ (∀ b ∈ vain, p.room? b labels = none) ∧
      p.Learned c labels.length vain q ∧ q.Roomy labels e ∧
      (∀ b ∈ rest.head?, p.room? b labels = some e ∧ q.size = p.size) ∧
      (rest = [] → q.size = p.size + blockSize ∧ e = p.size) ∧
      (vain ++ rest ≠ [] → ∀ n, (vain ++ rest).length ≤ n →
        p.searchOpen c labels (p.block p.openHead).prev n p.openHead =
          rest.head?.elim (p.learnAll c labels.length vain, none) fun b =>
            ((p.learnAll c labels.length vain).modifyBlock b fun r => { r with head := e },
              some e)) := by
  by_cases h0 : p.openHead = 0
  · obtain ⟨l, hring, hmem⟩ := h.rings.on .opened
    obtain rfl : l = [] := hring.head_eq_zero_iff.mp h0
    have hstart : p.Learned c labels.length [] p :=
      .of_learnAll h h2 hlen List.nodup_nil fun x hx => (hmem x).mp hx
    obtain ⟨hlearned, hroomy, hnew⟩ := hstart.added rfl labels
    refine ⟨[], [], _, _, ?_, hring, by simp, hlearned, hroomy, by simp, fun _ => hnew,
      fun hne => absurd rfl hne⟩
    unfold Pool.placeFor
    rw [if_pos h0]
  obtain ⟨t, last, hring, hprev, hahead⟩ := h.ahead h0
  have hopen := hahead.opened
  have hbound := hahead.length_lt.2
  obtain ⟨vain, rest, heq, hinVain, hexhausted, hfound⟩ := hahead.searchOpen_eq h2 hlen
  rw [← hprev] at hexhausted hfound
  rw [heq] at hring hopen
  have hlength : (vain ++ rest).length = t.length + 1 := congrArg List.length heq.symm
  have hnodup : vain.Nodup := (List.nodup_append.mp hring.nodup).1
  have hvain : ∀ b ∈ vain, p.OnOpen c b := fun b hb => hopen b (List.mem_append_left _ hb)
  rcases rest with _ | ⟨b, rest⟩
  · have hsearch := hexhausted rfl
    obtain ⟨hlearned, hroomy, hnew⟩ :=
      ((Learned.of_learnAll h h2 hlen hnodup hvain).log (.exhausted labels.length)).added
        (size_learnAll ..) labels
    refine ⟨vain, [], _, _, ?_, hring, hinVain, hlearned, hroomy, by simp, fun _ => hnew,
      fun _ n hn => hsearch n (by omega)⟩
    unfold Pool.placeFor
    rw [if_neg h0, hsearch _ hbound]
  · obtain ⟨e, hroom, hsearch⟩ := hfound b rfl
    obtain ⟨hlearned, hroomy⟩ := h.found h2 hlen hnodup hvain
      (hopen b (List.mem_append_right _ List.mem_cons_self)) hroom
    refine ⟨vain, b :: rest, _, e, ?_, hring, hinVain, hlearned, hroomy, fun d hd => ?_, by simp,
      fun _ n hn => hsearch n (by omega)⟩
    · unfold Pool.placeFor
      rw [if_neg h0, hsearch _ hbound]
    · obtain rfl : b = d := Option.some.inj hd
      exact ⟨hroom, size_learnAll ..⟩

/-- **Finding room for children** comes to slots that are free, and leaves behind no more than what
the blocks that were searched in vain have learned. -/
theorem WellKept.places (h : p.WellKept c) (hlabels : labels.Nodup) (h2 : 2 ≤ labels.length) :
    ∃ vain rest, p.Places c labels vain rest (p.placeFor c labels).1 (p.placeFor c labels).2 := by
  have hne : labels ≠ [] := List.ne_nil_of_length_pos (by omega)
  obtain ⟨vain, rest, q, e, heq, hring, hinVain, hlearned, hroomy, hfound, hnew, hsearch⟩ :=
    h.exists_search h2 (length_le_of_nodup hlabels)
  have hopen : ∀ b ∈ vain ++ rest, p.OnOpen c b := fun b hb =>
    h.onRing_iff.mp (hring.onRing_iff.mpr hb)
  have hvain : ∀ b ∈ vain, p.OnOpen c b := fun b hb => hopen b (List.mem_append_left _ hb)
  have hnone : ∀ b ∈ vain, ¬ p.HasRoom labels b := fun b hb => by
    rw [h.hasRoom_iff (hvain b hb) hne, hinVain b hb]
    simp
  have hsome : ∀ b ∈ rest.head?, p.HasRoom labels b ∧
      (p.freeList b).find? (fun e => p.fits e labels) = some e := fun b hb => by
    have hb' := hopen b (List.mem_append_right _ (List.mem_of_mem_head? hb))
    rw [h.hasRoom_iff hb' hne, (hfound b hb).1]
    exact ⟨rfl, h.find?_of_room? hb'.2.1 hne (hfound b hb).1⟩
  rw [heq]
  exact ⟨vain, rest,
    { ring := hring
      inVain := hnone
      found := hsome
      scan := fun b hb n hn => h.scanFree_eq (hopen b hb) hn
      search := hsearch
      room := ⟨hroomy, fun x _ => by rw [blockOf_xor, blockOf_xor]⟩
      added := by
        dsimp only
        rcases rest with _ | ⟨b, rest⟩
        · refine ⟨.inr (hnew rfl), fun _ b hb => hnone b ?_, fun _ => (hnew rfl).1⟩
          rwa [hring.onRing_iff, List.append_nil] at hb
        · have hsize := (hfound b rfl).2
          refine ⟨.inl hsize, fun hq => ?_, fun hno => absurd (hsome b rfl).1 (hno b ?_)⟩
          · unfold blockSize at hq
            omega
          · exact hring.onRing_iff.mpr (List.mem_append_right _ List.mem_cons_self)
      trials := fun b hb => (hlearned.account b hb).2.2
      rejects := fun b hb => (hlearned.account b hb).2.1
      closed := hlearned.closed_iff h hvain
      opened := hlearned.opened_iff h hvain
      full := hlearned.full_iff h hvain
      slot := fun i hi => hlearned.slot_eq h hi
      free := fun b hb => ⟨(hlearned.account b hb).1, hlearned.mem_freeList_iff h hb⟩ }⟩

end Pool

/-! ### The pools that come up in a trie -/

namespace Trie

variable {o : Options} {e : Encoding} {t : Trie} {M : Entries} {p : Pool} {labels : List UInt8}
  {key : Key} {value : Int32} {n : Nat} {x : UInt8}

/-- The pools that come up in a trie: after any calls, and whenever a child is asked for while one more
value is stored. -/
inductive ComesTo (t : Trie) : Pool → Prop
  | rest (calls : List Call) : ComesTo t (t.run calls).1.pool
  | asking (calls : List Call) {key : Key} {value : Int32} {p : Pool} {n : Nat} {x : UInt8} :
      refusal t.config.encoding key value = none →
      Pool.Asks t.config (t.run calls).1.pool 0 key p n x → ComesTo t p

/-- The books are in order whenever a child is asked for. -/
theorem Holds.kept_of_asks (h : t.Holds M) (hrefusal : refusal t.config.encoding key value = none)
    (hasks : Pool.Asks t.config t.pool 0 key p n x) : p.WellKept t.config := by
  obtain ⟨T, off, hlays, hM⟩ := h
  obtain ⟨hkey, h0, -⟩ := refusal_eq_none hrefusal
  obtain ⟨T', off', q, hlays', -⟩ := hasks.lays hlays hM trivial (by simp) h0 rfl (.inr hkey)
  exact hlays'.draws.kept

/-- So are those of all the pools that come up. -/
theorem ComesTo.kept (hcreate : Trie.create e o = .ok t) (h : t.ComesTo p) : p.WellKept t.config := by
  obtain ⟨ho, rfl⟩ := validate_of_create hcreate
  cases h with
  | rest calls =>
    obtain ⟨hholds, hconfig, -⟩ := run_holds ho e calls
    have hkept := hholds.kept
    rwa [hconfig] at hkept
  | @asking calls key value _ n x hrefusal hasks =>
    obtain ⟨hholds, hconfig, -⟩ := run_holds ho e calls
    have hkept := @Holds.kept_of_asks _ _ p key value n x hholds
    rw [hconfig] at hkept
    exact hkept hrefusal hasks

end Trie

end DoubleArrayTrie
