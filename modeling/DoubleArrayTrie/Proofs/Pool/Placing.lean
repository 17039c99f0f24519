import DoubleArrayTrie.Pool.Place
import DoubleArrayTrie.Proofs.Pool.Growing

/-!
# Finding room

A search takes nothing: the slots that it comes to are free, and what it changes is what is known of
the blocks it was in vain in. It goes along the open ring while blocks leave that ring, which works
since it has read the next block before.

* `WellKept.learn`: what a block learns keeps the invariant, the ring it closes on included.
* `WellKept.searchOpen`: so does a search, and the slots for all labels are free where it ends well.
* `WellKept.placeOne`, `WellKept.placeFor`: there is always room, outside of block `0`.
-/

namespace DoubleArrayTrie

namespace Pool

variable {c : Config} {p q : Pool} {b e n : Nat} {l : List Nat} {labels : List UInt8}

/-- The slots for children with these labels are free when the first label is at slot `e`. -/
structure Roomy (p : Pool) (labels : List UInt8) (e : Nat) : Prop where
  le : blockSize ≤ e
  free : p.Free e
  all : ∀ x ∈ labels, p.Free ((e ^^^ (labels.headD 0).toNat) ^^^ x.toNat)

/-! ### A search along a free list -/

theorem scanFree_mem (h : p.IsFreeList b l) {head : Nat} :
    ∀ {n e e' : Nat}, e ∈ l → p.scanFree labels head n e = some e' → e' ∈ l ∧ p.fits e' labels := by
  intro n
  induction n with
  | zero => intro e e' _ hscan; simp [scanFree] at hscan
  | succ n ih =>
    intro e e' he hscan
    unfold scanFree at hscan
    split_ifs at hscan with hfits hend
    · obtain rfl := Option.some.inj hscan
      exact ⟨he, hfits⟩
    · exact ih (h.nextFree_mem he) hscan

theorem room?_mem (h : p.IsFreeList b l) (hne : labels ≠ []) (hroom : p.room? b labels = some e) :
    e ∈ l ∧ p.fits e labels := by
  unfold room? at hroom
  dsimp only at hroom
  split_ifs at hroom with hlen
  have hpos := List.length_pos_of_ne_nil hne
  exact scanFree_mem h (h.exists_head (by omega)).1 hroom

/-- Where labels fit there is room for them. -/
theorem WellKept.roomy_of_fits (h : p.WellKept c) (he : p.Free e) (hle : blockSize ≤ e)
    (hfits : p.fits e labels) : p.Roomy labels e := by
  refine ⟨hle, he, fun x hx => ?_⟩
  rcases labels with _ | ⟨first, rest⟩
  · simp at hx
  rcases List.mem_cons.mp hx with rfl | hx
  · rw [List.headD_cons, xor_label_cancel]
    exact he
  · have hcheck := List.all_eq_true.mp hfits x hx
    have hpos : 0 < blockOf ((e ^^^ first.toNat) ^^^ x.toNat) := by
      rw [blockOf_xor, blockOf_xor]
      exact blockSize_le_iff.mp hle
    refine ⟨?_, h.xor_lt x (h.xor_lt first he.2.1), of_decide_eq_true hcheck⟩
    exact lt_of_lt_of_le (by decide : 0 < blockSize) (blockSize_le_iff.mpr hpos)

/-! ### What a search in vain leaves behind -/

theorem reject_setReject (p : Pool) (n : Nat) (x : Int) (m : Nat) :
    (p.setReject n x).reject m = if m = n ∧ m < p.rejects.size then x else p.reject m := by
  unfold reject setReject
  simp only [Array.getD_eq_getD_getElem?, Array.getElem?_setIfInBounds]
  by_cases hmn : m = n
  · subst hmn
    by_cases hm : m < p.rejects.size <;> simp [hm]
  · simp [hmn, Ne.symm hmn]

theorem reject_lowerReject (p : Pool) (k n m : Nat) : (p.lowerReject k n).reject m =
    if m = k ∧ m < p.rejects.size ∧ (n : Int) < p.reject m then (n : Int) else p.reject m := by
  unfold lowerReject
  by_cases hm : m = k
  · subst hm
    by_cases hlt : (n : Int) < p.reject m
    · rw [if_pos hlt, reject_setReject]
      simp only [hlt, and_true]
    · rw [if_neg hlt, if_neg (by tauto)]
  · rw [if_neg (show ¬ (m = k ∧ _) from fun h => hm h.1)]
    split_ifs
    · rw [reject_setReject, if_neg fun h => hm h.1]
    · rfl

@[simp] theorem slots_lowerReject (p : Pool) (k n : Nat) :
    (p.lowerReject k n).slots = p.slots := by
  unfold lowerReject
  split_ifs <;> rfl

@[simp] theorem blocks_lowerReject (p : Pool) (k n : Nat) :
    (p.lowerReject k n).blocks = p.blocks := by
  unfold lowerReject
  split_ifs <;> rfl

@[simp] theorem size_lowerReject (p : Pool) (k n : Nat) : (p.lowerReject k n).size = p.size := by
  unfold lowerReject
  split_ifs <;> rfl

@[simp] theorem head_lowerReject (p : Pool) (k n : Nat) (r : Ring) :
    (p.lowerReject k n).head r = p.head r := by
  unfold lowerReject
  cases r <;> split_ifs <;> rfl

@[simp] theorem size_rejects_lowerReject (p : Pool) (k n : Nat) :
    (p.lowerReject k n).rejects.size = p.rejects.size := by
  unfold lowerReject setReject
  split_ifs <;> simp

@[simp] theorem slots_learn (c : Config) (p : Pool) (b n : Nat) :
    (p.learn c b n).slots = p.slots := by
  unfold learn
  dsimp only
  split_ifs <;> simp

@[simp] theorem size_learn (c : Config) (p : Pool) (b n : Nat) : (p.learn c b n).size = p.size := by
  unfold learn
  dsimp only
  split_ifs <;> simp

@[simp] theorem size_blocks_learn (c : Config) (p : Pool) (b n : Nat) :
    (p.learn c b n).blocks.size = p.blocks.size := by
  unfold learn
  dsimp only
  split_ifs <;> simp

@[simp] theorem size_rejects_learn (c : Config) (p : Pool) (b n : Nat) :
    (p.learn c b n).rejects.size = p.rejects.size := by
  unfold learn
  dsimp only
  split_ifs <;> simp

@[simp] theorem capacity_learn (c : Config) (p : Pool) (b n : Nat) :
    (p.learn c b n).capacity = p.capacity := by
  unfold capacity
  rw [slots_learn]

theorem slots_searchOpen (c : Config) (p : Pool) (labels : List UInt8) (last : Int) (n b : Nat) :
    (p.searchOpen c labels last n b).1.slots = p.slots := by
  induction n generalizing p b with
  | zero => rfl
  | succ n ih =>
    unfold searchOpen
    split
    · rfl
    · dsimp only
      split_ifs
      · exact slots_learn ..
      · rw [ih, slots_learn]

@[simp] theorem live_learn (c : Config) (p : Pool) (b n : Nat) : (p.learn c b n).live = p.live :=
  live_congr (size_learn ..) (slot_congr (slots_learn ..))

theorem reject_learn (c : Config) (p : Pool) (b n m : Nat) : (p.learn c b n).reject m =
    if m = (p.block b).free.toNat ∧ m < p.rejects.size ∧ (n : Int) < p.reject m then (n : Int)
    else p.reject m := by
  have hlower := fun f => reject_lowerReject (p.modifyBlock b f) (p.block b).free.toNat n m
  unfold learn
  dsimp only
  split_ifs with hlast h h
  · rw [reject, rejects_moveBlock]
    exact (hlower _).trans (if_pos h)
  · rw [reject, rejects_moveBlock]
    exact (hlower _).trans (if_neg h)
  · exact (hlower _).trans (if_pos h)
  · exact (hlower _).trans (if_neg h)

theorem account_learn (c : Config) (hb : b < p.blocks.size) (n d : Nat) :
    ((p.learn c b n).block d).account =
      if d = b then ((p.block d).free, (n : Int), (p.block d).trials + 1, (p.block d).head)
      else (p.block d).account := by
  have hblock : (((p.modifyBlock b fun r =>
      { r with reject := n, trials := r.trials + 1 }).lowerReject (p.block b).free.toNat n).block
        d).account =
      if d = b then ((p.block d).free, (n : Int), (p.block d).trials + 1, (p.block d).head)
      else (p.block d).account := by
    rw [block_congr (blocks_lowerReject ..), block_modifyBlock]
    by_cases hd : d = b
    · subst hd
      rw [if_pos ⟨rfl, hb⟩, if_pos rfl]
      rfl
    · rw [if_neg fun h => hd h.1.symm, if_neg hd]
  rw [← hblock]
  unfold learn
  dsimp only
  split_ifs
  · exact account_moveBlock ..
  · rfl

/-- The links do not change before the block moves. -/
theorem WellKept.rings_lowerReject (h : p.WellKept c) (b k n : Nat) :
    ((p.modifyBlock b fun r => { r with reject := n, trials := r.trials + 1 }).lowerReject k n).Rings
      fun d => (p.block d).ring c.maxTrial := by
  refine h.rings.congr (fun _ => by simp) (by simp) (fun d => ?_) (by simp) fun _ => rfl
  rw [block_congr (blocks_lowerReject ..), block_modifyBlock]
  split_ifs <;> exact ⟨rfl, rfl⟩

/-- The rings when an open block learns: it is closed if it has had its last trial. -/
theorem WellKept.rings_learn (h : p.WellKept c) (hpos : 0 < b) (hlt : b < p.blocksInUse)
    (hopen : (p.block b).ring c.maxTrial = .opened) (n : Nat) :
    (p.learn c b n).Rings fun d => ((p.learn c b n).block d).ring c.maxTrial := by
  have hacc := account_learn (p := p) c (h.lt_size_blocks hlt) n
  obtain ⟨h0, h1, -⟩ := Block.ring_eq_opened.mp hopen
  have hring : ∀ d, d ≠ b → ((p.learn c b n).block d).ring c.maxTrial =
      (p.block d).ring c.maxTrial := fun d hd => Block.ring_account (by rw [hacc, if_neg hd])
  have hself : ((p.learn c b n).block b).ring c.maxTrial =
      if (p.block b).trials + 1 = c.maxTrial then .closed else .opened := by
    have haccb := hacc b
    rw [if_pos rfl, Block.account] at haccb
    simp only [Prod.mk.injEq] at haccb
    unfold Block.ring
    rw [haccb.1, haccb.2.2.1, if_neg h0]
    simp [h1]
  have hrings := h.rings_lowerReject b (p.block b).free.toNat n
  conv => arg 1; unfold Pool.learn
  dsimp only
  split_ifs at hself ⊢ with hlast
  · exact hrings.moveBlock hpos (by simpa [blocksInUse] using hlt) hopen (by decide) hself hring
  · exact hrings.stay (.inr (hself.trans hopen.symm)) hring

/-- **What an open block learns** closes it if it has had its last trial, and keeps the invariant. -/
theorem WellKept.learn (h : p.WellKept c) (hpos : 0 < b) (hlt : b < p.blocksInUse)
    (hopen : (p.block b).ring c.maxTrial = .opened) (h2 : 2 ≤ n) (hn : n ≤ blockSize) :
    (p.learn c b n).WellKept c := by
  have hacc := account_learn (p := p) c (h.lt_size_blocks hlt) n
  have hq : p.Within (p.learn c b n) b :=
    ⟨size_learn .., capacity_learn .., size_blocks_learn .., size_rejects_learn ..,
      fun e _ => by rw [slot_congr (slots_learn ..)], fun d hd => by rw [hacc, if_neg hd]⟩
  have htrials := h.trials b hlt
  have htrial := (Block.ring_eq_opened.mp hopen).2.2
  have haccb := hacc b
  rw [if_pos rfl, Block.account] at haccb
  simp only [Prod.mk.injEq] at haccb
  obtain ⟨hfree, hreject, htrials', hhead⟩ := haccb
  refine h.within hq hlt (fun m h1 hm => ?_) ?_ ?_ (h.rings_learn hpos hlt hopen n) ?_ ?_
    fun e _ he => ?_
  · have hbound := h.bound m h1 hm
    rw [reject_learn]
    split_ifs
    · omega
    · exact hbound
  · rw [hreject]
    unfold blockSize at hn
    omega
  · rw [htrials']
    omega
  · obtain ⟨l, hl⟩ := h.freeLists b hlt
    refine ⟨l, hl.congr (fun e _ => ?_) (fun e _ => ?_) hfree fun _ => hhead⟩
    · rw [free_iff_live, free_iff_live, live_learn, size_learn]
    · rw [slot_congr (slots_learn ..)]
      exact ⟨rfl, rfl⟩
  · rw [hhead, size_learn]
    exact h.heads b hlt
  · rw [live_learn] at he
    rw [slot_congr (slots_learn ..)]
    exact h.clear e he

/-! ### A search along the open ring -/

/-- Any free slot of a block may be the one where searches of its free list start. -/
theorem WellKept.rehead (h : p.WellKept c) (he : p.Free e) :
    (p.modifyBlock (blockOf e) fun r => { r with head := e }).WellKept c := by
  have hlt := h.blockOf_lt.mpr he.2.1
  have hb := h.lt_size_blocks hlt
  have hblock : ∀ d, (p.modifyBlock (blockOf e) fun r => { r with head := e }).block d =
      if d = blockOf e then { p.block d with head := e } else p.block d := by
    intro d
    rw [block_modifyBlock]
    by_cases hd : d = blockOf e
    · subst hd; simp [hb]
    · simp [hd, Ne.symm hd]
  have hself := hblock (blockOf e)
  rw [if_pos rfl] at hself
  have hq : p.Within (p.modifyBlock (blockOf e) fun r => { r with head := e }) (blockOf e) :=
    ⟨rfl, rfl, size_blocks_modifyBlock .., rfl, fun _ _ => rfl,
      fun d hd => by rw [hblock, if_neg hd]⟩
  refine h.within hq hlt h.bound ?_ ?_ ?_ ?_ ?_ fun j _ hj => h.clear j hj
  · rw [hself]
    exact h.reject _ hlt
  · rw [hself]
    exact h.trials _ hlt
  · refine h.rings.congr (fun _ => head_modifyBlock ..) (by simp) (fun d => ?_) rfl fun d => ?_
    · rw [hblock]
      split_ifs <;> exact ⟨rfl, rfl⟩
    · rw [hblock]
      split_ifs <;> rfl
  · obtain ⟨l, hl⟩ := h.freeLists _ hlt
    exact hl.rehead ((hl.mem_iff e).mpr ⟨he, rfl⟩) rfl rfl (by rw [hself]) (by rw [hself])
  · rw [hself]
    exact ⟨Int.natCast_nonneg e, Int.ofNat_lt.mpr he.2.1⟩

/-- Block `b` is on the open ring. -/
def OnOpen (c : Config) (p : Pool) (b : Nat) : Prop :=
  0 < b ∧ b < p.blocksInUse ∧ (p.block b).ring c.maxTrial = .opened

/-- Every block of the open ring is followed by one, and by another one if it is not the only one. -/
theorem WellKept.onOpen_nextBlock (h : p.WellKept c) {d : Nat} (hb : p.OnOpen c b)
    (hd : p.OnOpen c d) (hbd : b ≠ d) : p.OnOpen c (p.nextBlock b) ∧ p.nextBlock b ≠ b := by
  obtain ⟨l, hring, hmem⟩ := h.rings.on .opened
  have hbl := (hmem b).mpr hb
  refine ⟨(hmem _).mp (hring.nextBlock_mem hbl), fun halone => hbd ?_⟩
  have hl := hring.circular.eq_singleton hring.nodup hbl fun y hy => by rw [← hy.nextBlock_eq, halone]
  have hdl := (hmem d).mpr hd
  rw [hl] at hdl
  exact (List.mem_singleton.mp hdl).symm

/-- The other blocks stay on the open ring when one learns. -/
theorem WellKept.onOpen_learn (h : p.WellKept c) {d : Nat} (hb : p.OnOpen c b) (hd : p.OnOpen c d)
    (hdb : d ≠ b) (n : Nat) : (p.learn c b n).OnOpen c d := by
  have hacc := account_learn (p := p) c (h.lt_size_blocks hb.2.1) n d
  rw [if_neg hdb] at hacc
  exact ⟨hd.1, by simpa [blocksInUse] using hd.2.1, (Block.ring_account hacc).trans hd.2.2⟩

/-- The other blocks of the open ring name the same next block when one learns, unless they named
that one. -/
theorem WellKept.nextBlock_learn (h : p.WellKept c) {d : Nat} (hb : p.OnOpen c b)
    (hd : p.OnOpen c d) (hdb : d ≠ b) (hnext : p.nextBlock d ≠ b) (n : Nat) :
    (p.learn c b n).nextBlock d = p.nextBlock d := by
  have hrings := h.rings_lowerReject b (p.block b).free.toNat n
  have huse : ((p.modifyBlock b fun r => { r with reject := n, trials := r.trials + 1 }).lowerReject
      (p.block b).free.toNat n).blocksInUse = p.blocksInUse := by simp [blocksInUse]
  have hsame : ((p.modifyBlock b fun r => { r with reject := n, trials := r.trials + 1 }).lowerReject
      (p.block b).free.toNat n).nextBlock d = p.nextBlock d := by
    unfold Pool.nextBlock
    rw [block_congr (blocks_lowerReject ..), block_modifyBlock, if_neg fun h => hdb h.1.symm]
  unfold Pool.learn
  dsimp only
  split_ifs
  · rw [hrings.nextBlock_moveBlock hb.1 (by rw [huse]; exact hb.2.1) hb.2.2 (by decide)
      (by rw [huse]; exact hd) hdb (by rwa [hsame]), hsame]
  · exact hsame

/-- **A search along the open ring keeps the invariant**, and where it ends well there is room. The
block where it is to end stays on the ring until it comes there. -/
theorem WellKept.searchOpen (h2 : 2 ≤ labels.length) (hlen : labels.length ≤ blockSize) {last : Nat} :
    ∀ {n b : Nat} {p : Pool}, p.WellKept c → p.OnOpen c b → p.OnOpen c last →
      (p.searchOpen c labels last n b).1.WellKept c ∧
      (p.searchOpen c labels last n b).1.live = p.live ∧
      ∀ e, (p.searchOpen c labels last n b).2 = some e →
        (p.searchOpen c labels last n b).1.Roomy labels e := by
  intro n
  induction n with
  | zero => exact fun h _ _ => ⟨h, rfl, fun e he => by simp [Pool.searchOpen] at he⟩
  | succ n ih =>
    intro b p h hb hlast
    obtain ⟨l, hl⟩ := h.freeLists b hb.2.1
    unfold Pool.searchOpen
    cases hroom : p.room? b labels with
    | some e =>
      obtain ⟨hel, hfits⟩ := room?_mem hl (by rintro rfl; simp at h2) hroom
      obtain ⟨he, rfl⟩ := (hl.mem_iff e).mp hel
      refine ⟨h.rehead he, rfl, fun e' he' => ?_⟩
      obtain rfl := Option.some.inj he'
      have hroomy := h.roomy_of_fits he (blockSize_le_iff.mpr hb.1) hfits
      exact ⟨hroomy.le, hroomy.free, hroomy.all⟩
    | none =>
      have hlearn := h.learn hb.1 hb.2.1 hb.2.2 h2 hlen
      dsimp only
      by_cases hend : (b : Int) = last
      · rw [if_pos hend]
        exact ⟨hlearn, live_learn .., fun e he => by simp at he⟩
      · rw [if_neg hend]
        have hbl : b ≠ last := fun hbl => hend (congrArg Nat.cast hbl)
        obtain ⟨hnext, hne⟩ := h.onOpen_nextBlock hb hlast hbl
        obtain ⟨hkept, hlive, hfound⟩ := ih hlearn (h.onOpen_learn hb hnext hne _)
          (h.onOpen_learn hb hlast (Ne.symm hbl) _)
        exact ⟨hkept, hlive.trans (live_learn ..), hfound⟩

/-! ### There is always room -/

theorem WellKept.log (h : p.WellKept c) (v : Event) : (p.log v).WellKept c :=
  ⟨h.valid, h.size_pos, h.size_dvd, h.size_le, h.capacity_dvd, h.size_blocks, h.size_rejects,
    h.bound, h.reject, h.trials, h.rings.congr (fun r => by cases r <;> rfl) le_rfl
      (fun _ => ⟨rfl, rfl⟩) rfl fun _ => rfl,
    fun b hb => (h.freeLists b hb).imp fun _ hl =>
      hl.congr (fun _ _ => Iff.rfl) (fun _ _ => ⟨rfl, rfl⟩) rfl fun _ => rfl, h.heads,
    h.unused.congr rfl (fun _ _ => rfl) fun _ _ => rfl, h.clear⟩

/-- There is room in a new block. -/
theorem WellKept.roomy_addBlock (h : p.WellKept c) (labels : List UInt8) :
    (p.addBlock c).1.Roomy labels (p.addBlock c).2 := by
  obtain ⟨-, -, hstart, hfree⟩ := h.addBlock
  have hpos := h.size_pos
  have hdvd := h.size_dvd
  rw [hstart]
  refine ⟨hpos, hfree _ le_rfl (by unfold blockSize; omega), fun x _ => ?_⟩
  have hblock : blockOf ((p.size ^^^ (labels.headD 0).toNat) ^^^ x.toNat) = blockOf p.size := by
    rw [blockOf_xor, blockOf_xor]
  unfold blockOf blockSize at *
  exact hfree _ (by omega) (by omega)

/-- The head of a block that is not full, on a ring, is free and outside of block `0`. -/
theorem WellKept.free_head (h : p.WellKept c) {r : Ring} (hr : r ≠ .full) (hne : p.head r ≠ 0) :
    p.Free (p.block (p.head r)).head.toNat ∧ blockSize ≤ (p.block (p.head r)).head.toNat := by
  obtain ⟨l, hring, hmem⟩ := h.rings.on r
  obtain ⟨hpos, hlt, hkind⟩ := (hmem _).mp (hring.head_mem hne)
  obtain ⟨m, hm⟩ := h.freeLists _ hlt
  have hfree : (p.block (p.head r)).free ≠ 0 := by
    intro h0
    refine hr (hkind.symm.trans ?_)
    unfold Block.ring
    exact if_pos h0
  obtain ⟨he, heb⟩ := (hm.mem_iff _).mp (hm.exists_head hfree).1
  exact ⟨he, blockSize_le_iff.mpr (by rwa [heb])⟩

/-- A new block comes into use for a single child if no block is on the closed or the open ring. -/
theorem placeOne_cases (c : Config) (p : Pool) :
    (p.placeOne c).1 = p ∧ ¬ (p.closedHead = 0 ∧ p.openHead = 0) ∨
      (p.placeOne c).1 = (p.addBlock c).1 ∧ p.closedHead = 0 ∧ p.openHead = 0 := by
  unfold Pool.placeOne
  split_ifs with hclosed hopen
  · exact .inl ⟨rfl, fun hheads => hclosed hheads.1⟩
  · exact .inl ⟨rfl, fun hheads => hopen hheads.2⟩
  · exact .inr ⟨rfl, not_not.mp hclosed, not_not.mp hopen⟩

/-- **There is room for one child**, and finding it changes nothing that is live. -/
theorem WellKept.placeOne (h : p.WellKept c) : (p.placeOne c).1.WellKept c ∧
    (p.placeOne c).1.live = p.live ∧ (p.placeOne c).1.Free (p.placeOne c).2 ∧
    blockSize ≤ (p.placeOne c).2 := by
  unfold Pool.placeOne
  split_ifs with hclosed hopen
  · obtain ⟨hfree, hle⟩ := h.free_head (r := .closed) (by decide) hclosed
    exact ⟨h, rfl, hfree, hle⟩
  · obtain ⟨hfree, hle⟩ := h.free_head (r := .opened) (by decide) hopen
    exact ⟨h, rfl, hfree, hle⟩
  · have hroom := h.roomy_addBlock []
    exact ⟨h.addBlock.1, h.addBlock.2.1, hroom.free, hroom.le⟩

/-- **There is room for any children**, and finding it changes nothing that is live. -/
theorem WellKept.placeFor (h : p.WellKept c) (h2 : 2 ≤ labels.length)
    (hlen : labels.length ≤ blockSize) : (p.placeFor c labels).1.WellKept c ∧
    (p.placeFor c labels).1.live = p.live ∧
    (p.placeFor c labels).1.Roomy labels (p.placeFor c labels).2 := by
  unfold Pool.placeFor
  by_cases hopen : p.openHead = 0
  · rw [if_pos hopen]
    exact ⟨h.addBlock.1, h.addBlock.2.1, h.roomy_addBlock labels⟩
  rw [if_neg hopen]
  obtain ⟨l, hring, hmem⟩ := h.rings.on .opened
  have hhead : p.openHead ∈ l := hring.head_mem hopen
  have hlink := hring.link_prevBlock hhead
  obtain ⟨hkept, hlive, hfound⟩ := WellKept.searchOpen (n := p.visitBound) h2 hlen h
    ((hmem _).mp hhead) ((hmem _).mp (hring.prevBlock_mem hhead))
  rw [← hlink.2] at hkept hlive hfound
  split
  · rename_i q e heq
    rw [heq] at hkept hlive hfound
    exact ⟨hkept, hlive, hfound e rfl⟩
  · rename_i q heq
    rw [heq] at hkept hlive
    have hq := hkept.log (.exhausted labels.length)
    exact ⟨hq.addBlock.1, hq.addBlock.2.1.trans hlive, hq.roomy_addBlock labels⟩

end Pool

end DoubleArrayTrie
