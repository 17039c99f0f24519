import DoubleArrayTrie.Proofs.Refinement
import DoubleArrayTrie.Proofs.Pool.Counting

/-!
# The double array is a tree

What a walk over the slots finds, with nothing known but the records: it starts at the root, goes to
the child that a node names and on along the siblings. In a trie that holds entries the walk comes to
each slot in use, on one way only, and finds the marks of a tree at each of them.

* `Pool.Reaches`: a walk from the root comes to a slot by this trail.
* `Pool.IsTree`: what the walk finds.
* `Trie.isTree_run`: this is so after any calls on a new trie.
-/

namespace DoubleArrayTrie

namespace Pool

/-- Following the siblings at offset `k` from a label on yields these labels, and ends. -/
inductive Siblings (p : Pool) (k : Nat) : UInt8 → List UInt8 → Prop
  | last {l : UInt8} : (p.slot (k ^^^ l.toNat)).sibling = 0 → p.Siblings k l [l]
  | next {l : UInt8} {ls : List UInt8} : (p.slot (k ^^^ l.toNat)).sibling ≠ 0 →
      p.Siblings k (p.slot (k ^^^ l.toNat)).sibling ls → p.Siblings k l (l :: ls)

/-- Node `n` has children with these labels, in this order. A leaf that holds a value has none; the
chain of the root starts where its slot would name a sibling. -/
inductive Children (c : Config) (p : Pool) : Nat → List UInt8 → Prop
  | bare : (p.slot 0).sibling = 0 → p.Children c 0 []
  | root {ls : List UInt8} : (p.slot 0).sibling ≠ 0 →
      p.Siblings (p.offsetOf c 0) (p.slot 0).sibling ls → p.Children c 0 ls
  | leaf {n : Nat} : n ≠ 0 → c.encoding.holdsValue (p.slot n).base = true → p.Children c n []
  | inner {n : Nat} {ls : List UInt8} : n ≠ 0 → c.encoding.holdsValue (p.slot n).base = false →
      0 ≤ c.encoding.offset (p.slot n).base → p.Siblings (p.offsetOf c n) (p.slot n).child ls →
      p.Children c n ls

/-- A walk from the root comes to slot `n` by this trail. It does not go on from terminals. -/
inductive Reaches (c : Config) (p : Pool) : Nat → Trail → Prop
  | root : p.Reaches c 0 []
  | child {n : Nat} {q : Trail} {ls : List UInt8} {l : UInt8} : p.Reaches c n q → q.head? ≠ some 0 →
      p.Children c n ls → l ∈ ls → p.Reaches c (p.offsetOf c n ^^^ l.toNat) (l :: q)

/-- The slots in use are a tree, and the others are blank. -/
structure IsTree (c : Config) (p : Pool) : Prop where
  /-- The root names no parent and no first child. -/
  root : (p.slot 0).check = -1 ∧ (p.slot 0).child = 0
  /-- The chain of each node ends, has no label twice, has that of a terminal first and is in order;
  its slots name the node as their parent. -/
  chain : ∀ n q, p.Reaches c n q → q.head? ≠ some 0 → ∃ ls, p.Children c n ls ∧ ls.Nodup ∧
    0 ∉ ls.tail ∧ (c.ordered = true → ls.Pairwise (· < ·)) ∧
    ∀ l ∈ ls, (p.slot (p.offsetOf c n ^^^ l.toNat)).check = n
  /-- The slots in use are those that are reached. -/
  used : ∀ n, (∃ q, p.Reaches c n q) ↔ n < p.size ∧ (n = 0 ∨ 0 ≤ (p.slot n).check)
  /-- No slot is reached twice. -/
  once : ∀ n q r, p.Reaches c n q → p.Reaches c n r → q = r
  /-- A node that is neither the root nor a terminal has children, or a value of its own. -/
  leaf : ∀ n l q, p.Reaches c n (l :: q) → l ≠ 0 → (∃ ls, p.Children c n ls ∧ ls ≠ []) ∨
    c.encoding = .reduced ∧ 0 ≤ (p.slot n).base ∧ (p.slot n).base < Encoding.unset ∧
      (p.slot n).child = 0
  /-- The slots that are reached and those that the blocks count as free are all slots. -/
  count : ({n | n ≠ 0 ∧ ∃ q, p.Reaches c n q}.ncard : Int) + 1 +
    ((List.range p.blocksInUse).map fun b => (p.block b).free).sum = p.size
  /-- That number of free slots is the one that a trie tells, if it is a word. -/
  freeSlots : p.size < 18446744073709551616 →
    {n | n ≠ 0 ∧ ∃ q, p.Reaches c n q}.ncard + 1 = p.size - p.freeSlots
  /-- A free slot names neither a sibling nor a child. -/
  clear : ∀ e, p.Free e → (p.slot e).sibling = 0 ∧ (p.slot e).child = 0

/-! ### Chains and children -/

variable {c : Config} {p : Pool} {T : Outline} {off : Trail → Nat} {M : Trail → Option Int32}
  {q : Trail} {l : UInt8} {ls : List UInt8} {k n : Nat}

theorem Siblings.unique {ls' : List UInt8} (h : p.Siblings k l ls) (h' : p.Siblings k l ls') :
    ls = ls' := by
  induction h generalizing ls' with
  | last hend =>
    cases h' with
    | last => rfl
    | next hgo => exact absurd hend hgo
  | next hgo _ ih =>
    cases h' with
    | last hend => exact absurd hend hgo
    | next _ hrest => rw [ih hrest]

theorem Children.unique {ls' : List UInt8} (h : p.Children c n ls) (h' : p.Children c n ls') :
    ls = ls' := by
  cases h with
  | bare hend =>
    cases h' with
    | bare => rfl
    | root hgo => exact absurd hend hgo
    | leaf hn => exact absurd rfl hn
    | inner hn => exact absurd rfl hn
  | root hgo hs =>
    cases h' with
    | bare hend => exact absurd hend hgo
    | root _ hs' => exact hs.unique hs'
    | leaf hn => exact absurd rfl hn
    | inner hn => exact absurd rfl hn
  | leaf hn hholds =>
    cases h' with
    | bare => exact absurd rfl hn
    | root => exact absurd rfl hn
    | leaf => rfl
    | inner _ hnot => simp [hholds] at hnot
  | inner hn hnot _ hs =>
    cases h' with
    | bare => exact absurd rfl hn
    | root => exact absurd rfl hn
    | leaf _ hholds => simp [hholds] at hnot
    | inner _ _ _ hs' => exact hs.unique hs'

/-- Following links yields the chain that they tell. -/
theorem Links.siblings (h : p.Links k (l :: ls)) (hls : IsLabels (l :: ls)) :
    p.Siblings k l (l :: ls) := by
  induction ls generalizing l with
  | nil => exact .last h.sibling_head
  | cons m ls ih =>
    have hnext : (p.slot (k ^^^ l.toNat)).sibling = m := h.sibling_head
    have hm : m ≠ 0 := fun hm => hls.tail (by simp [hm])
    refine .next (by rwa [hnext]) ?_
    rw [hnext]
    exact ih (h.of_cons hls) hls.of_cons

theorem Siblings.exists_cons (h : p.Siblings k l ls) : ∃ ms, ls = l :: ms := by
  cases h with
  | last => exact ⟨[], rfl⟩
  | next _ _ => exact ⟨_, rfl⟩

/-- A chain without repetition is told by its links. -/
theorem Siblings.links (h : p.Siblings k l ls) (hnd : ls.Nodup) : p.Links k ls := by
  induction h with
  | last hend =>
    intro m hm
    obtain rfl := List.mem_singleton.mp hm
    rw [hend, nextLabel_cons_self]
    rfl
  | @next l ls _ hrest ih =>
    obtain ⟨hl, hnd⟩ := List.nodup_cons.mp hnd
    intro m hm
    by_cases hlm : l = m
    · obtain ⟨ms, rfl⟩ := hrest.exists_cons
      rw [← hlm, nextLabel_cons_self]
      rfl
    · rw [nextLabel_cons_of_ne hlm]
      exact ih hnd m ((List.mem_cons.mp hm).resolve_left (Ne.symm hlm))

/-! ### Nodes -/

/-- A node with a child is no terminal. -/
theorem head?_ne_zero (hT : T.Sound c) (hl : l ∈ T.kids q) : q.head? ≠ some 0 := by
  intro hhead
  rcases q with _ | ⟨m, q⟩
  · simp at hhead
  · obtain rfl : m = 0 := Option.some.inj hhead
    rw [hT.terminal q] at hl
    simp at hl

/-- A trail that does not end at a terminal has no terminal on its way. -/
theorem zero_notMem_trail (hT : T.Sound c) (hq : T.Mem q) (hterm : q.head? ≠ some 0) : 0 ∉ q := by
  induction q with
  | nil => simp
  | cons l q ih =>
    have hl : l ≠ 0 := fun hl => hterm (by rw [hl]; rfl)
    rw [List.mem_cons, not_or]
    exact ⟨Ne.symm hl, ih hq.1 (head?_ne_zero hT hq.2)⟩

/-- A leaf that is neither the root nor a terminal has the value of a key that is held. -/
theorem leaf_value (hM : T.Holds c [] M) (hq : T.Mem q) (hq0 : q ≠ [])
    (h0 : 0 ∉ q) (hkids : T.kids q = []) :
    c.encoding.holdsValue (T.word q) = true ∧ ∃ v, M q = some v ∧ T.word q = v.toInt := by
  obtain ⟨u, hqu, hu⟩ := ((hM.mem q h0).mp hq).resolve_left fun hnil => hq0 (List.suffix_nil.mp hnil)
  have humem := (hM.mem u (hM.key u hu).2).mpr (.inr ⟨u, List.suffix_refl u, hu⟩)
  obtain rfl := Outline.eq_of_leaf_suffix hkids humem hqu
  obtain ⟨v, hv⟩ := Option.ne_none_iff_exists'.mp hu
  have hvalue := hM.value u hq h0
  rw [hv, Outline.value?, hkids, if_neg (by simp)] at hvalue
  unfold Outline.leafValue? at hvalue
  split_ifs at hvalue with hleaf
  · exact ⟨hleaf.2.2.1, v, hv, Option.some.inj hvalue⟩
  · simp at hvalue

/-- The chain of the root starts where its slot would name a sibling. -/
theorem Lays.children_root (h : p.Lays c T off) : p.Children c 0 (T.kids []) := by
  have hsibling : (p.slot 0).sibling = (T.kids []).headD 0 := by rw [h.slot_root]
  rcases hkids : T.kids [] with _ | ⟨l, ls⟩
  · rw [hkids] at hsibling
    exact .bare hsibling
  · rw [hkids, List.headD_cons] at hsibling
    have hoffset : p.offsetOf c 0 = off [] := h.offsetOf_eq (t := []) trivial (.inl rfl)
    have hl : l ≠ 0 := by
      rintro rfl
      exact h.sound.root (by rw [hkids]; simp)
    have hlabels := h.sound.labels []
    have hlabels' := h.sound.isLabels_chain []
    have hlinks := h.links_chain (t := []) trivial
    rw [hkids] at hlabels
    rw [Outline.chain_nil, hkids] at hlinks hlabels'
    refine .root (by rwa [hsibling]) ?_
    rw [hsibling, hoffset]
    exact (hlinks.of_cons hlabels').siblings hlabels

/-- That of another node starts at its first child. -/
theorem Lays.children_inner (h : p.Lays c T off) (hq : T.Mem q) (hq0 : q ≠ []) (hkids : T.kids q ≠ []) :
    p.Children c (locate off q) (T.kids q) := by
  have hbase := h.base_of_kids hq (.inr hkids)
  have hchain : T.chain q = T.kids q := by rw [Outline.chain, if_neg hq0]
  have hlinks := h.links_chain hq
  have hlabels := h.sound.labels q
  have hchild := h.child_eq hq
  rw [hchain] at hlinks hchild
  refine .inner (fun hzero => hq0 (h.locate_eq_zero hq hzero)) ?_ ?_ ?_
  · rw [hbase, Encoding.holdsValue_ofOffset]
  · rw [hbase, Encoding.offset_ofOffset]
    exact Int.natCast_nonneg _
  · rw [h.offsetOf_eq hq (.inr hkids), hchild]
    obtain ⟨l, ls, hls⟩ := List.exists_cons_of_ne_nil hkids
    rw [hls] at hlinks hlabels ⊢
    exact hlinks.siblings hlabels

/-- The children of a node are those that the outline has, if it has any or its word is a value. -/
theorem Lays.children_of (h : p.Lays c T off) (hq : T.Mem q)
    (hk : q = [] ∨ T.kids q ≠ [] ∨ c.encoding.holdsValue (T.word q) = true) :
    p.Children c (locate off q) (T.kids q) := by
  by_cases hq0 : q = []
  · rw [hq0]
    exact h.children_root
  · by_cases hkids : T.kids q = []
    · have hword := (hk.resolve_left hq0).resolve_left (not_not.mpr hkids)
      rw [hkids]
      exact .leaf (fun hzero => hq0 (h.locate_eq_zero hq hzero))
        ((h.holdsValue_base hq).mpr ⟨hq0, hkids, hword⟩)
    · exact h.children_inner hq hq0 hkids

/-- Once no node is left that no key needs, all nodes but terminals have children or a value. -/
theorem kids_or_value (hT : T.Sound c) (hM : T.Holds c [] M) (hq : T.Mem q)
    (hterm : q.head? ≠ some 0) :
    q = [] ∨ T.kids q ≠ [] ∨ c.encoding.holdsValue (T.word q) = true := by
  by_cases hq0 : q = []
  · exact .inl hq0
  · by_cases hkids : T.kids q = []
    · exact .inr (.inr (leaf_value hM hq hq0 (zero_notMem_trail hT hq hterm) hkids).1)
    · exact .inr (.inl hkids)

theorem Lays.children_kids (h : p.Lays c T off) (hM : T.Holds c [] M) (hq : T.Mem q)
    (hterm : q.head? ≠ some 0) : p.Children c (locate off q) (T.kids q) :=
  h.children_of hq (kids_or_value h.sound hM hq hterm)

/-- The children that the slots tell are those of the outline. -/
theorem Lays.eq_kids (h : p.Lays c T off) (hq : T.Mem q) (hterm : q.head? ≠ some 0)
    (hls : p.Children c (locate off q) ls) : ls = T.kids q := by
  by_cases hk : q = [] ∨ T.kids q ≠ [] ∨ c.encoding.holdsValue (T.word q) = true
  · exact hls.unique (h.children_of hq hk)
  · -- a leaf without a value says nothing of children
    rw [not_or, not_or, not_not] at hk
    obtain ⟨l, u, rfl⟩ := List.exists_cons_of_ne_nil hk.1
    have hoffset := h.sound.leaf l u (fun hl => hterm (by rw [hl]; rfl)) hq hk.2.1
    rw [← h.base_of_leaf hq hk.2.1] at hoffset
    generalize hloc : locate off (l :: u) = n at hls hoffset
    cases hls with
    | bare => exact absurd (h.locate_eq_zero hq hloc) hk.1
    | root => exact absurd (h.locate_eq_zero hq hloc) hk.1
    | leaf => exact hk.2.1.symm
    | inner _ _ hnonneg =>
      unfold Encoding.offset? at hoffset
      split_ifs at hoffset with hneg
      exact absurd hnonneg (not_le.mpr hneg)

/-- **A walk comes to the nodes of the outline**, by their trails. -/
theorem Lays.reaches_iff (h : p.Lays c T off) : p.Reaches c n q ↔ T.Mem q ∧ locate off q = n := by
  constructor
  · intro hreach
    induction hreach with
    | root => exact ⟨trivial, rfl⟩
    | child _ hterm hchildren hl ih =>
      obtain ⟨hmem, rfl⟩ := ih
      obtain rfl := h.eq_kids hmem hterm hchildren
      have hoffset := h.offsetOf_eq hmem (.inr (List.ne_nil_of_mem hl))
      rw [hoffset]
      exact ⟨⟨hmem, hl⟩, rfl⟩
  · rintro ⟨hmem, rfl⟩
    induction q with
    | nil => exact .root
    | cons l q ih =>
      have hkids := List.ne_nil_of_mem hmem.2
      have hoffset := h.offsetOf_eq hmem.1 (.inr hkids)
      have hchildren := h.children_of hmem.1 (.inr (.inl hkids))
      have hchild := Reaches.child (ih hmem.1) (head?_ne_zero h.sound hmem.2) hchildren hmem.2
      rwa [hoffset] at hchild

/-- The slots in use are those that a walk comes to. -/
theorem Lays.used_iff (h : p.Lays c T off) :
    (∃ q, p.Reaches c n q) ↔ n < p.size ∧ (n = 0 ∨ 0 ≤ (p.slot n).check) := by
  constructor
  · rintro ⟨q, hq⟩
    obtain ⟨hmem, rfl⟩ := h.reaches_iff.mp hq
    obtain ⟨hlt, hcheck, -⟩ := live_eq_some_iff.mp (h.draws.live q hmem)
    exact ⟨hlt, hcheck⟩
  · rintro ⟨hlt, hcheck⟩
    obtain ⟨q, hmem, hloc⟩ := h.draws.onto n _ (live_eq_some_iff.mpr ⟨hlt, hcheck, rfl⟩)
    exact ⟨q, h.reaches_iff.mpr ⟨hmem, hloc⟩⟩

theorem mem_usedSlots : n ∈ p.usedSlots ↔ n < p.size ∧ (n = 0 ∨ 0 ≤ (p.slot n).check) := by
  simp [usedSlots]

theorem Lays.mem_usedSlots (h : p.Lays c T off) :
    n ∈ p.usedSlots ↔ ∃ q, T.Mem q ∧ locate off q = n := by
  rw [Pool.mem_usedSlots, ← h.used_iff]
  simp only [h.reaches_iff]

/-! ### Numbers of nodes -/

/-- The slots that a walk comes to, besides the root. -/
theorem Lays.setOf_reached (h : p.Lays c T off) :
    {n | n ≠ 0 ∧ ∃ q, p.Reaches c n q} = locate off '' {t : Trail | t ≠ [] ∧ T.Mem t} := by
  ext n
  simp only [h.reaches_iff, Set.mem_ofPred_eq, Set.mem_image]
  constructor
  · rintro ⟨hn, q, hq, rfl⟩
    exact ⟨q, ⟨fun hnil => hn (by rw [hnil]; rfl), hq⟩, rfl⟩
  · rintro ⟨q, ⟨hq0, hq⟩, rfl⟩
    exact ⟨fun hzero => hq0 (h.locate_eq_zero hq hzero), q, hq, rfl⟩

theorem Lays.injOn_locate (h : p.Lays c T off) :
    Set.InjOn (locate off) {t : Trail | t ≠ [] ∧ T.Mem t} := fun _ ht _ hu => h.locate_inj ht.2 hu.2

theorem Lays.finite_nodes (h : p.Lays c T off) : {t : Trail | t ≠ [] ∧ T.Mem t}.Finite := by
  refine Set.Finite.of_finite_image ((Set.finite_lt_nat p.size).subset ?_) h.injOn_locate
  rintro n ⟨t, ht, rfl⟩
  exact h.draws.lt_size ht.2

/-- **The nodes and the free slots are all slots.** -/
theorem Lays.freeSlots_add (h : p.Lays c T off) (hsize : p.size < 18446744073709551616) :
    p.freeSlots + ({t : Trail | t ≠ [] ∧ T.Mem t}.ncard + 1) = p.size := by
  have hcard := h.draws.kept.card_used
  simp only [← h.used_iff] at hcard
  rw [h.setOf_reached, h.injOn_locate.ncard_image] at hcard
  rw [h.draws.kept.freeSlots_eq hsize]
  omega

/-! ### The tree -/

/-- **The slots in use are a tree** in a pool that holds a trie. -/
theorem Lays.isTree (h : p.Lays c T off) (hM : T.Holds c [] M) : p.IsTree c := by
  have hkept := h.draws.kept
  have hcard := hkept.card_used
  simp only [← h.used_iff] at hcard
  refine
    { root := ?root
      chain := fun n q hq hterm => ?chain
      used := fun _ => h.used_iff
      once := fun n q r hq hr => ?once
      leaf := fun n l q hq hl => ?leaf
      count := ?count
      freeSlots := fun hsize => ?freeSlots
      clear := fun e he => hkept.clear e (free_iff_live.mp he).2 }
  case root =>
    rw [h.slot_root]
    exact ⟨rfl, rfl⟩
  case chain =>
    obtain ⟨hmem, rfl⟩ := h.reaches_iff.mp hq
    have hlabels := h.sound.labels q
    refine ⟨_, h.children_kids hM hmem hterm, hlabels.nodup, hlabels.tail,
      fun ho => h.sound.ordered ho q, fun l hl => ?_⟩
    rw [h.offsetOf_eq hmem (.inr (List.ne_nil_of_mem hl))]
    exact h.check_cons (l := l) ⟨hmem, hl⟩
  case once =>
    obtain ⟨hmemq, hlocq⟩ := h.reaches_iff.mp hq
    obtain ⟨hmemr, hlocr⟩ := h.reaches_iff.mp hr
    exact h.locate_inj hmemq hmemr (hlocq.trans hlocr.symm)
  case leaf =>
    obtain ⟨hmem, rfl⟩ := h.reaches_iff.mp hq
    have hterm : (l :: q).head? ≠ some 0 := fun hhead => hl (Option.some.inj hhead)
    have h0 := zero_notMem_trail h.sound hmem hterm
    by_cases hkids : T.kids (l :: q) = []
    · obtain ⟨hholds, v, hv, hword⟩ := leaf_value hM hmem (by simp) h0 hkids
      have hred := Encoding.eq_reduced hholds
      have haccepts := hM.accepts _ v hv
      rw [hred, Encoding.accepts_reduced] at haccepts
      rw [h.base_of_leaf hmem hkids, hword]
      refine .inr ⟨hred, haccepts.1, haccepts.2, ?_⟩
      rw [h.child_eq hmem, Outline.chain_cons, hkids]
      rfl
    · exact .inl ⟨_, h.children_kids hM hmem hterm, hkids⟩
  case count =>
    rw [hkept.sum_free]
    exact_mod_cast hcard
  case freeSlots =>
    rw [hkept.freeSlots_eq hsize]
    omega

end Pool

namespace Trie

theorem Holds.isTree {t : Trie} {M : Entries} (h : t.Holds M) : t.pool.IsTree t.config := by
  obtain ⟨T, off, hlays, hholds⟩ := h
  exact hlays.isTree hholds

/-- **After any calls on a new trie its slots are a tree**, whatever the encoding and the valid
options. -/
theorem isTree_run {o : Options} (ho : o.validate = .ok ()) (e : Encoding) (calls : List Call) :
    ∃ t, Trie.create e o = .ok t ∧ (t.run calls).1.pool.IsTree { o with encoding := e } := by
  obtain ⟨hholds, hconfig, -⟩ := run_holds ho e calls
  have htree := hholds.isTree
  rw [hconfig] at htree
  exact ⟨_, (create_eq ho e).1, htree⟩

/-- Unordered siblings, and a key that is erased once another goes through it. -/
theorem isTree_run_standard : Options.validate { ordered := false } = .ok () ∧
    ∃ t, Trie.create .standard { ordered := false } = .ok t ∧
      (t.run [.insert [98] 1, .insert [97] 2, .insert [98, 99] 3, .erase [98]]).1.pool.IsTree
        { ordered := false, encoding := .standard } :=
  ⟨rfl, isTree_run rfl .standard _⟩

end Trie

end DoubleArrayTrie
