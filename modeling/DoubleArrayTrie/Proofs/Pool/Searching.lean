import DoubleArrayTrie.Proofs.Pool.Placing
import DoubleArrayTrie.Proofs.Pool.Releasing

/-!
# What a search for room comes to

A search along a free list comes to the first slot at which the labels fit. One along the open ring
goes through blocks without room, each of which learns from it, up to the first one that has room. The
blocks that have learned leave the others alone: their links up to the end of the search are those
from before, and so are their slots and what they count.

* `IsFreeList.scanFree_eq`, `IsFreeList.room?_eq`: what is found in a block.
* `Pool.learnAll`: what several blocks learn, one after the other.
* `Pool.Ahead`, `Ahead.learn`: the blocks that a search along the open ring has still before it.
* `Ahead.searchOpen_eq`: what such a search does.
-/

namespace DoubleArrayTrie

namespace Pool

variable {c : Config} {p q : Pool} {b d e n : Nat} {l : List Nat} {labels : List UInt8}

/-! ### One block -/

/-- From a slot on a search ends where it comes back to the head `a`, and comes to the first slot at
which the labels fit. -/
theorem scanFree_of_isChain {a : Nat} {t : List Nat}
    (hchain : List.IsChain p.FreeLink (e :: (t ++ [a]))) (ha : a ∉ t) (hn : t.length < n) :
    p.scanFree labels a n e = (e :: t).find? fun e => p.fits e labels := by
  induction n generalizing e t with
  | zero => simp at hn
  | succ n ih =>
    unfold scanFree
    rw [List.find?_cons]
    cases hfits : p.fits e labels with
    | true => rfl
    | false =>
      rw [if_neg Bool.false_ne_true]
      rcases t with _ | ⟨x, t⟩
      · have hend : p.nextFree e = a := (List.isChain_cons_cons.mp hchain).1.nextFree_eq
        rw [if_pos hend]
        rfl
      · obtain ⟨hlink, hrest⟩ := List.isChain_cons_cons.mp hchain
        rw [List.mem_cons, not_or] at ha
        rw [hlink.nextFree_eq, if_neg (Ne.symm ha.1)]
        exact ih hrest ha.2 (Nat.lt_of_succ_lt_succ hn)

/-- **A search along a free list** ends after as many slots as it has, and comes to the first one at
which the labels fit. -/
theorem IsFreeList.scanFree_eq (h : p.IsFreeList b l) (hne : l ≠ []) (hn : l.length ≤ n) :
    p.scanFree labels (p.block b).head.toNat n (p.block b).head.toNat =
      l.find? fun e => p.fits e labels := by
  rcases l with _ | ⟨a, t⟩
  · exact absurd rfl hne
  · have ha : (p.block b).head.toNat = a := by rw [h.head_eq a rfl, Int.toNat_natCast]
    rw [ha]
    exact scanFree_of_isChain (Circular.cons_iff.mp h.circular) (List.nodup_cons.mp h.nodup).1 hn

/-- **What is found in a block** is the first free slot at which the labels fit, unless the block is
not searched. -/
theorem IsFreeList.room?_eq (h : p.IsFreeList b l) (hlen : l.length ≤ p.capacity)
    (hlabels : labels ≠ []) : p.room? b labels =
      if labels.length ≤ l.length ∧ (labels.length : Int) < (p.block b).reject then
        l.find? fun e => p.fits e labels
      else none := by
  have hpos := List.length_pos_of_ne_nil hlabels
  unfold room?
  dsimp only
  simp only [h.free_eq, Int.ofNat_le]
  split_ifs with hroom
  · exact h.scanFree_eq (List.ne_nil_of_length_pos (by omega)) hlen
  · rfl

theorem WellKept.length_freeList_le (h : p.WellKept c) (hl : p.IsFreeList b l) :
    l.length ≤ p.capacity := hl.length_le.trans (h.size_pos.trans h.size_le)

theorem scanFree_congr (h : q.slot = p.slot) (labels : List UInt8) (head n e : Nat) :
    q.scanFree labels head n e = p.scanFree labels head n e := by
  have hfits : ∀ e, q.fits e labels = p.fits e labels := fun e => by
    cases labels with
    | nil => rfl
    | cons => simp only [fits, h]
  have hnext : ∀ e, q.nextFree e = p.nextFree e := fun e => by simp only [nextFree, h]
  induction n generalizing e with
  | zero => rfl
  | succ n ih => simp only [scanFree, hfits, hnext, ih]

/-- What is found in a block depends on the slots and on what the block counts. -/
theorem room?_congr (hslots : q.slots = p.slots) (hacc : (q.block b).account = (p.block b).account)
    (labels : List UInt8) : q.room? b labels = p.room? b labels := by
  obtain ⟨hfree, hreject, -, hhead⟩ := Block.account_eq_iff.mp hacc
  unfold room? capacity
  simp only [hfree, hreject, hhead, hslots, scanFree_congr (slot_congr hslots)]

/-! ### What blocks learn -/

/-- What blocks learn, one after the other, when `n` children have no room in them. -/
def learnAll (c : Config) (n : Nat) (p : Pool) (bs : List Nat) : Pool :=
  bs.foldl (fun p b => p.learn c b n) p

@[simp] theorem slots_learnAll (c : Config) (n : Nat) (p : Pool) (bs : List Nat) :
    (p.learnAll c n bs).slots = p.slots := by
  induction bs generalizing p with
  | nil => rfl
  | cons b bs ih => exact (ih _).trans (slots_learn ..)

@[simp] theorem size_learnAll (c : Config) (n : Nat) (p : Pool) (bs : List Nat) :
    (p.learnAll c n bs).size = p.size := by
  induction bs generalizing p with
  | nil => rfl
  | cons b bs ih => exact (ih _).trans (size_learn ..)

/-- **Each block learns once**, and nothing else is kept about the others. -/
theorem account_learnAll (c : Config) (n : Nat) {bs : List Nat} (hnodup : bs.Nodup)
    (hbs : ∀ b ∈ bs, b < p.blocks.size) (d : Nat) : ((p.learnAll c n bs).block d).account =
      if d ∈ bs then ((p.block d).free, (n : Int), (p.block d).trials + 1, (p.block d).head)
      else (p.block d).account := by
  induction bs generalizing p with
  | nil => exact (if_neg List.not_mem_nil).symm
  | cons b bs ih =>
    obtain ⟨hb, hnodup⟩ := List.nodup_cons.mp hnodup
    have hstep := account_learn (p := p) c (hbs b List.mem_cons_self) n d
    have hrest := ih (p := p.learn c b n) hnodup fun x hx => by
      rw [size_blocks_learn]
      exact hbs x (List.mem_cons_of_mem b hx)
    rw [show p.learnAll c n (b :: bs) = (p.learn c b n).learnAll c n bs from rfl, hrest]
    by_cases hdb : d = b
    · subst hdb
      rw [if_neg hb, if_pos List.mem_cons_self, hstep, if_pos rfl]
    · rw [if_neg hdb] at hstep
      obtain ⟨hfree, -, htrials, hhead⟩ := Block.account_eq_iff.mp hstep
      simp only [List.mem_cons, hdb, false_or, hfree, htrials, hhead, hstep]

/-- Blocks of the open ring keep the invariant when they learn. -/
theorem WellKept.learnAll (h : p.WellKept c) (h2 : 2 ≤ n) (hn : n ≤ blockSize) {bs : List Nat}
    (hnodup : bs.Nodup) (hbs : ∀ b ∈ bs, p.OnOpen c b) : (p.learnAll c n bs).WellKept c := by
  induction bs generalizing p with
  | nil => exact h
  | cons b bs ih =>
    obtain ⟨hb, hnodup⟩ := List.nodup_cons.mp hnodup
    have hopen := hbs b List.mem_cons_self
    have hne : ∀ x ∈ bs, x ≠ b := fun x hx hxb => hb (hxb ▸ hx)
    exact ih (p := p.learn c b n) (h.learn hopen.1 hopen.2.1 hopen.2.2 h2 hn) hnodup
      fun x hx => h.onOpen_learn hopen (hbs x (List.mem_cons_of_mem b hx)) (hne x hx) n

/-! ### The open ring -/

/-- The open ring from its head on is a chain that ends at the block before the head. -/
theorem IsRing.isChain (h : p.IsRing .opened l) (hne : p.openHead ≠ 0) : ∃ t : List Nat,
    ∃ last : Nat, l = p.openHead :: t ∧
      List.IsChain (fun x y => p.nextBlock x = y) (p.openHead :: t) ∧
      (p.openHead :: t).getLast (List.cons_ne_nil _ t) = last ∧
      (p.block p.openHead).prev = last := by
  rcases l with _ | ⟨a, t⟩
  · exact absurd h.head_eq hne
  obtain rfl : p.openHead = a := h.head_eq
  obtain ⟨hchain, -, hlast⟩ := List.isChain_append.mp (Circular.cons_iff.mp h.circular)
  exact ⟨t, _, rfl, hchain.imp fun _ _ hxy => hxy.nextBlock_eq, rfl,
    (hlast _ (List.getLast?_eq_some_getLast (List.cons_ne_nil _ t)) _ rfl).2⟩

/-- A search along the open ring has come to block `b`, and has the blocks `t` still before it. -/
structure Ahead (c : Config) (p : Pool) (last b : Nat) (t : List Nat) : Prop where
  kept : p.WellKept c
  chain : List.IsChain (fun x y => p.nextBlock x = y) (b :: t)
  nodup : (b :: t).Nodup
  opened : ∀ x ∈ b :: t, p.OnOpen c x
  last : (b :: t).getLast (List.cons_ne_nil b t) = last

/-- A search starts at the head of the open ring and ends at the block before it. -/
theorem WellKept.ahead (h : p.WellKept c) (hne : p.openHead ≠ 0) : ∃ t : List Nat, ∃ last : Nat,
    p.IsRing .opened (p.openHead :: t) ∧ (p.block p.openHead).prev = last ∧
      p.Ahead c last p.openHead t := by
  obtain ⟨l, hring, hmem⟩ := h.rings.on .opened
  obtain ⟨t, last, rfl, hchain, hlast, hprev⟩ := hring.isChain hne
  exact ⟨t, last, hring, hprev, h, hchain, hring.nodup, fun x hx => (hmem x).mp hx, hlast⟩

/-- A search comes to fewer blocks than are in use, so the number it is given is enough. -/
theorem Ahead.length_lt {last : Nat} {t : List Nat} (h : p.Ahead c last b t) :
    t.length + 1 < p.blocksInUse ∧ t.length < p.visitBound := by
  -- block `0` is not on a ring
  have hsub : 0 :: b :: t ⊆ List.range p.blocksInUse := fun x hx => by
    rw [List.mem_range]
    rcases List.mem_cons.mp hx with rfl | hx
    · exact Nat.zero_lt_of_lt (h.opened b List.mem_cons_self).2.1
    · exact (h.opened x hx).2.1
  have hnodup : (0 :: b :: t).Nodup :=
    List.nodup_cons.mpr ⟨fun h0 => lt_irrefl 0 (h.opened 0 h0).1, h.nodup⟩
  have hle := (List.subperm_of_subset hnodup hsub).length_le
  have hblocks := h.kept.blocksInUse_le
  rw [List.length_range, List.length_cons, List.length_cons] at hle
  unfold visitBound
  omega

/-- **When a block learns** the search goes on with the next one. The links of the blocks to come are
those from before. -/
theorem Ahead.learn {last : Nat} {t : List Nat} (h : p.Ahead c last b (d :: t)) (h2 : 2 ≤ n)
    (hn : n ≤ blockSize) :
    p.nextBlock b = d ∧ (b : Int) ≠ last ∧ (p.learn c b n).Ahead c last d t := by
  obtain ⟨hkept, hchain, hnodup, hopen, hlast⟩ := h
  have hb := hopen b List.mem_cons_self
  obtain ⟨hnext, hrest⟩ := List.isChain_cons_cons.mp hchain
  obtain ⟨hbt, hnodup'⟩ := List.nodup_cons.mp hnodup
  rw [List.getLast_cons (List.cons_ne_nil d t)] at hlast
  have hne : ∀ x ∈ d :: t, x ≠ b := fun x hx hxb => hbt (hxb ▸ hx)
  have hmem : ∀ x ∈ d :: t, p.OnOpen c x := fun x hx => hopen x (List.mem_cons_of_mem b hx)
  refine ⟨hnext, fun heq => ?_, hkept.learn hb.1 hb.2.1 hb.2.2 h2 hn, ?_, hnodup',
    fun x hx => hkept.onOpen_learn hb (hmem x hx) (hne x hx) n, hlast⟩
  · exact hne _ (List.getLast_mem (List.cons_ne_nil d t)) (hlast.trans (Int.ofNat_inj.mp heq).symm)
  · refine List.IsChain.imp_of_mem_imp (fun x y hx hy hxy => ?_) hrest
    exact (hkept.nextBlock_learn hb (hmem x hx) (hne x hx) (by rw [hxy]; exact hne y hy) n).trans hxy

theorem searchOpen_of_some {last : Int} (h : p.room? b labels = some e) (hn : 0 < n) :
    p.searchOpen c labels last n b = (p.modifyBlock b fun r => { r with head := e }, some e) := by
  obtain ⟨n, rfl⟩ := Nat.exists_eq_succ_of_ne_zero hn.ne'
  rw [Pool.searchOpen, h]

theorem searchOpen_of_none {last : Int} (h : p.room? b labels = none) :
    p.searchOpen c labels last (n + 1) b =
      if b = last then (p.learn c b labels.length, none)
      else (p.learn c b labels.length).searchOpen c labels last n (p.nextBlock b) := by
  rw [Pool.searchOpen, h]

/-- **A search along blocks of the open ring** goes through those that have no room, and each of them
learns; it ends at the first block that has room, or after the last one. -/
theorem Ahead.searchOpen_eq (h2 : 2 ≤ labels.length) (hlen : labels.length ≤ blockSize)
    {last : Nat} {t : List Nat} (h : p.Ahead c last b t) :
    ∃ vain rest, b :: t = vain ++ rest ∧ (∀ x ∈ vain, p.room? x labels = none) ∧
      (rest = [] → ∀ n, t.length < n →
        p.searchOpen c labels last n b = (p.learnAll c labels.length vain, none)) ∧
      ∀ d ∈ rest.head?, ∃ e, p.room? d labels = some e ∧ ∀ n, t.length < n →
        p.searchOpen c labels last n b =
          ((p.learnAll c labels.length vain).modifyBlock d fun r => { r with head := e }, some e) := by
  induction t generalizing p b with
  | nil =>
    obtain rfl : b = last := h.last
    cases hroom : p.room? b labels with
    | some e =>
      refine ⟨[], [b], rfl, by simp, by simp, fun d hd => ?_⟩
      obtain rfl : b = d := Option.some.inj hd
      exact ⟨e, hroom, fun n hn => searchOpen_of_some hroom hn⟩
    | none =>
      refine ⟨[b], [], rfl, by simpa using hroom, fun _ n hn => ?_, by simp⟩
      obtain ⟨n, rfl⟩ := Nat.exists_eq_succ_of_ne_zero (Nat.ne_of_gt hn)
      rw [searchOpen_of_none hroom, if_pos rfl]
      rfl
  | cons d t ih =>
    cases hroom : p.room? b labels with
    | some e =>
      refine ⟨[], b :: d :: t, rfl, by simp, by simp, fun x hx => ?_⟩
      obtain rfl : b = x := Option.some.inj hx
      exact ⟨e, hroom, fun n hn => searchOpen_of_some hroom (Nat.zero_lt_of_lt hn)⟩
    | none =>
      obtain ⟨hnext, hend, hahead⟩ := h.learn h2 hlen
      have hb := h.opened b List.mem_cons_self
      have hstep : ∀ n, (d :: t).length < n → p.searchOpen c labels last n b =
          (p.learn c b labels.length).searchOpen c labels last (n - 1) d := fun n hn => by
        obtain ⟨n, rfl⟩ := Nat.exists_eq_succ_of_ne_zero (Nat.ne_of_gt (Nat.zero_lt_of_lt hn))
        rw [searchOpen_of_none hroom, if_neg hend, hnext]
        rfl
      -- there is as much room in the blocks to come as before
      have hsame : ∀ x ∈ d :: t, (p.learn c b labels.length).room? x labels = p.room? x labels :=
        fun x hx => room?_congr (slots_learn ..)
          ((account_learn c (h.kept.lt_size_blocks hb.2.1) _ x).trans
            (if_neg fun hxb : x = b => (List.nodup_cons.mp h.nodup).1 (hxb ▸ hx))) labels
      obtain ⟨vain, rest, heq, hvain, hexhausted, hfound⟩ := ih hahead
      refine ⟨b :: vain, rest, congrArg (b :: ·) heq, ?_, fun hnil n hn => ?_, fun x hx => ?_⟩
      · rw [List.forall_mem_cons]
        refine ⟨hroom, fun x hx => ?_⟩
        rw [← hsame x (heq ▸ List.mem_append_left _ hx)]
        exact hvain x hx
      · rw [hstep n hn]
        exact hexhausted hnil _ (Nat.lt_sub_of_add_lt hn)
      · obtain ⟨e, he, hsearch⟩ := hfound x hx
        rw [hsame x (heq ▸ List.mem_append_right _ (List.mem_of_mem_head? hx))] at he
        refine ⟨e, he, fun n hn => ?_⟩
        rw [hstep n hn]
        exact hsearch _ (Nat.lt_sub_of_add_lt hn)

end Pool

end DoubleArrayTrie
