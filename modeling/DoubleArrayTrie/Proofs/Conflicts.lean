import DoubleArrayTrie.Proofs.Structure
import DoubleArrayTrie.Proofs.Trie.Extent

/-!
# Conflicts over slots

While a value is stored one child after the other is asked for, and the slot of one may be taken by a
child of another node. What the slots hold before and after such a conflict is settled can be told
from the slots alone: the same tree but for the new child, with the children of one node elsewhere.
The two nodes may be parent and child, the one that asks may be the one that is in the way, and its
slot may be the one that it asks for.

* `Pool.Asks`: the pools in which a child is asked for.
* `Pool.Conflict`, `Pool.Settles`: a conflict, and what becomes of it.
* `Pool.Lays.settles`: what a relocation does to a pool that holds a trie.
* `Trie.settles_run`: every conflict while a value is stored, after any calls on a new trie.
-/

namespace DoubleArrayTrie

namespace Pool

/-! ### Asking for children -/

/-- While a value for some bytes is stored from a node on, child `x` of node `m` is asked for. The
pool then is the one that is named next to last. -/
inductive Asks (c : Config) : Pool → Nat → Key → Pool → Nat → UInt8 → Prop
  /-- A leaf with a value asks for a terminal to give it to, since it is to have children. -/
  | terminal {p : Pool} {n : Nat} {label : UInt8} {labels : Key} :
      c.encoding.holdsValue (p.slot n).base = true → (p.slot n).base ≠ Encoding.unset →
      Asks c p n (label :: labels) p n 0
  /-- The node asks for the child to which the first byte leads. -/
  | child {p : Pool} {n : Nat} {label : UInt8} {labels : Key} :
      Asks c p n (label :: labels) (p.openLeaf c n) n label
  /-- So do the nodes below, once that child is there. -/
  | later {p q : Pool} {n m : Nat} {label x : UInt8} {labels : Key} :
      Asks c ((p.openLeaf c n).ensureChild c n label).1 ((p.openLeaf c n).ensureChild c n label).2
        labels q m x →
      Asks c p n (label :: labels) q m x
  /-- The last node asks for a terminal, if it does not hold the value itself. -/
  | value {p : Pool} {n : Nat} : ¬ c.encoding.holdsValue (p.slot n).base = true →
      Asks c p n [] p n 0

/-- A node with children, to which a query finds the way, asks for one more. -/
theorem Asks.of_walk {c : Config} {p : Pool} {n m k : Nat} {key labels : Key} {label : UInt8}
    (h : p.walk c n key = some m) (hk : c.encoding.offset? (p.slot m).base = some k) :
    Asks c p n (key ++ label :: labels) p m label := by
  induction key generalizing n with
  | nil =>
    obtain rfl := Option.some.inj h
    have hchild := @Asks.child c p n label labels
    rwa [openLeaf_of_offset? hk] at hchild
  | cons x key ih =>
    unfold walk at h
    split at h
    · simp at h
    · next next hnext =>
      obtain ⟨d, hd, hcheck, rfl⟩ := child?_eq_some hnext
      refine .later ?_
      rw [openLeaf_of_offset? hd, ensureChild_of_check hd hcheck]
      exact ih h

/-- The node at trail `q` asks for the slot of a new child, in which a child of another node is: node
`o`, at trail `u`. -/
structure Conflict (c : Config) (p : Pool) (r : Request) (q : Trail) (mine : List UInt8) (o : Nat)
    (u : Trail) (theirs : List UInt8) : Prop where
  asker : p.Reaches c r.node q
  mine : p.Children c r.node mine
  taken : (p.slot r.slot).check = o
  owner : p.Reaches c o u
  theirs : p.Children c o theirs
  apart : u ≠ q

/-- A conflict is settled: the node at trail `q` has a new child with label `x`, in slot `e`, and the
children of the node at trail `w` have moved. -/
structure Settles (c : Config) (p : Pool) (q : Trail) (x : UInt8) (w : Trail) (p' : Pool) (e : Nat) :
    Prop where
  /-- The bytes that led to a node lead to one again, and there is one new node. -/
  nodes : ∀ t, (∃ n, p'.Reaches c n t) ↔ (∃ n, p.Reaches c n t) ∨ t = x :: q
  /-- No slot is that of two nodes. -/
  once : ∀ n t t', p'.Reaches c n t → p'.Reaches c n t' → t = t'
  /-- No other slot is in use. -/
  used : ∀ n, n ∈ p'.usedSlots ↔ ∃ t, p'.Reaches c n t
  /-- A node has the children that it had, and the one that asked has the new one among them. -/
  children : ∀ n n' t, p.Reaches c n t → p'.Reaches c n' t → t.head? ≠ some 0 → ∃ ls,
    p.Children c n ls ∧ p'.Children c n' (if t = q then insertLabel c.ordered x ls else ls)
  /-- Terminals and leaves have the words that they had. -/
  word : ∀ n n' t, p.Reaches c n t → p'.Reaches c n' t → t.head? = some 0 ∨ p.Children c n [] →
    (p'.slot n').base = (p.slot n).base
  /-- So the value of a node is what it was, unless the new child is its terminal. -/
  value : ∀ n n' t, p.Reaches c n t → p'.Reaches c n' t → t.head? ≠ some 0 → t ≠ q ∨ x ≠ 0 →
    p'.valueAt c n' = p.valueAt c n
  /-- Only children of one node have moved. -/
  moved : ∀ n n' t, p.Reaches c n t → p'.Reaches c n' t → n' ≠ n → ∃ l, t = l :: w
  /-- Every child names the slot in which its parent is now. -/
  check : ∀ n n' l t, p'.Reaches c n t → p'.Reaches c n' (l :: t) → (p'.slot n').check = n
  /-- The new child is at the offset of its parent, and it has the word of a slot just taken. -/
  new : ∃ n, p'.Reaches c n q ∧ p'.offsetOf c n ^^^ x.toNat = e ∧ p'.Reaches c e (x :: q) ∧
    (p'.slot e).base = c.encoding.fresh x
  /-- One slot less is free, but for those of a block that has come into use. -/
  free : ∃ added, p'.blocksInUse = p.blocksInUse + added ∧
    (p'.size < 18446744073709551616 → p'.freeSlots + 1 = p.freeSlots + blockSize * added)

end Pool

/-! ### One more child -/

namespace Outline

variable {c : Config} {T : Outline} {q t : Trail} {x : UInt8}

/-- A node keeps its value when a node with children gets one more, unless that is its terminal. -/
theorem value?_graft (hkids : T.kids q ≠ []) (ht : t ≠ x :: q) (hx : t ≠ q ∨ x ≠ 0) :
    (T.graft c q x).value? c t = T.value? c t := by
  have hterm : 0 :: t ≠ x :: q := fun heq =>
    hx.elim (fun h => h (List.cons.inj heq).2) fun h => h (List.cons.inj heq).1.symm
  by_cases htq : t = q
  · subst htq
    have hx0 := hx.resolve_left fun h => h rfl
    unfold value?
    rw [leafValue?_of_kids hkids, leafValue?_of_kids (by rw [kids_graft_self]; exact insertLabel_ne_nil),
      word_graft_of_ne hterm]
    simp only [kids_graft_self, mem_insertLabel, hx0.symm, false_or]
  · exact value?_congr (kids_graft_of_ne x htq) (word_graft_of_ne ht) (word_graft_of_ne hterm)

/-- The nodes besides the root are one more. -/
theorem Sound.ncard_graft (hT : T.Sound c) (hq : T.Mem q) (hx : x ∉ T.kids q)
    (hfinite : {t : Trail | t ≠ [] ∧ T.Mem t}.Finite) :
    {t : Trail | t ≠ [] ∧ (T.graft c q x).Mem t}.ncard =
      {t : Trail | t ≠ [] ∧ T.Mem t}.ncard + 1 := by
  have hset : {t : Trail | t ≠ [] ∧ (T.graft c q x).Mem t} =
      insert (x :: q) {t : Trail | t ≠ [] ∧ T.Mem t} := by
    ext t
    simp only [Set.mem_ofPred_eq, Set.mem_insert_iff, hT.mem_graft hq hx]
    constructor
    · rintro ⟨hne, hmem | rfl⟩
      · exact .inr ⟨hne, hmem⟩
      · exact .inl rfl
    · rintro (rfl | ⟨hne, hmem⟩)
      · exact ⟨by simp, .inr rfl⟩
      · exact ⟨hne, .inl hmem⟩
  rw [hset]
  exact Set.ncard_insert_of_notMem (fun hmem => hx hmem.2.2) hfinite

end Outline

namespace Pool.Lays

variable {c : Config} {p p' : Pool} {T : Outline} {off off' : Trail → Nat}
  {M : Trail → Option Int32} {q t w : Trail} {x : UInt8} {k : Nat}

/-- The labels at a node are what they were, with the new one among them at the node that got it. -/
theorem children_graft (h : p.Lays c T off) (hM : T.Holds c [] M)
    (h' : p'.Lays c (T.graft c q x) off') (hq : T.Mem q) (hx : x ∉ T.kids q) (ht : T.Mem t)
    (hterm : t.head? ≠ some 0) : ∃ ls, p.Children c (locate off t) ls ∧
      p'.Children c (locate off' t) (if t = q then insertLabel c.ordered x ls else ls) := by
  have ht' : (T.graft c q x).Mem t := (h.sound.mem_graft hq hx t).mpr (.inl ht)
  refine ⟨_, h.children_kids hM ht hterm, ?_⟩
  by_cases htq : t = q
  · subst htq
    rw [if_pos rfl, ← Outline.kids_graft_self]
    refine h'.children_of ht' (.inr (.inl ?_))
    rw [Outline.kids_graft_self]
    exact insertLabel_ne_nil
  · have hword : (T.graft c q x).word t = T.word t := Outline.word_graft_of_ne fun heq =>
      hx (heq ▸ ht).2
    rw [if_neg htq, ← Outline.kids_graft_of_ne (c := c) x htq]
    refine h'.children_of ht' ?_
    rw [Outline.kids_graft_of_ne x htq, hword]
    exact kids_or_value h.sound hM ht hterm

/-- Terminals and leaves keep their words when a node with children gets one more. -/
theorem base_graft (h : p.Lays c T off) (h' : p'.Lays c (T.graft c q x) off') (hq : T.Mem q)
    (hkids : T.kids q ≠ []) (hx : x ∉ T.kids q) (ht : T.Mem t)
    (hleaf : t.head? = some 0 ∨ p.Children c (locate off t) []) :
    (p'.slot (locate off' t)).base = (p.slot (locate off t)).base := by
  have ht' : (T.graft c q x).Mem t := (h.sound.mem_graft hq hx t).mpr (.inl ht)
  rcases t with _ | ⟨l, t⟩
  · rw [h.base_of_kids ht (.inl rfl), h'.base_of_kids ht' (.inl rfl), h.root, h'.root]
  · have hkidst : T.kids (l :: t) = [] := by
      by_cases hl : l = 0
      · rw [hl, h.sound.terminal]
      · have hterm : (l :: t).head? ≠ some 0 := fun hhead => hl (Option.some.inj hhead)
        exact (h.eq_kids ht hterm (hleaf.resolve_left hterm)).symm
    have htq : l :: t ≠ q := fun htq => hkids (htq ▸ hkidst)
    have hkidst' : (T.graft c q x).kids (l :: t) = [] :=
      (Outline.kids_graft_of_ne x htq).trans hkidst
    rw [h.base_of_leaf ht hkidst, h'.base_of_leaf ht' hkidst',
      Outline.word_graft_of_ne fun heq => hx (heq ▸ ht).2]

/-- A node keeps its value when a node with children gets one more child, unless that is its
terminal. -/
theorem valueAt_graft (h : p.Lays c T off) (h' : p'.Lays c (T.graft c q x) off') (hq : T.Mem q)
    (hkids : T.kids q ≠ []) (hx : x ∉ T.kids q) (ht : T.Mem t) (hterm : t.head? ≠ some 0)
    (hxt : t ≠ q ∨ x ≠ 0) : p'.valueAt c (locate off' t) = p.valueAt c (locate off t) := by
  have hterm' : ∀ r, t ≠ 0 :: r := by
    rintro r rfl
    exact hterm rfl
  rw [h.valueAt_eq ht hterm', h'.valueAt_eq ((h.sound.mem_graft hq hx t).mpr (.inl ht)) hterm',
    Outline.value?_graft hkids (fun heq => hx (heq ▸ ht).2) hxt]

/-- The new child is at the offset of its parent, with the word of a slot just taken. -/
theorem reaches_graft (h : p.Lays c T off) (h' : p'.Lays c (T.graft c q x) off') (hq : T.Mem q)
    (hx : x ∉ T.kids q) : ∃ n, p'.Reaches c n q ∧ p'.offsetOf c n ^^^ x.toNat = locate off' (x :: q) ∧
      p'.Reaches c (locate off' (x :: q)) (x :: q) ∧
      (p'.slot (locate off' (x :: q))).base = c.encoding.fresh x := by
  have hmem := h.sound.mem_graft (c := c) hq hx
  have hkids' : (T.graft c q x).kids q ≠ [] := by
    rw [Outline.kids_graft_self]
    exact insertLabel_ne_nil
  have hleaf : (T.graft c q x).kids (x :: q) = [] := by
    rw [Outline.kids_graft_of_ne x (by simp)]
    exact h.sound.outside _ fun hmemx => hx hmemx.2
  have hq' := (hmem q).mpr (.inl hq)
  have hnew := (hmem (x :: q)).mpr (.inr rfl)
  refine ⟨_, h'.reaches_iff.mpr ⟨hq', rfl⟩, ?_, h'.reaches_iff.mpr ⟨hnew, rfl⟩, ?_⟩
  · rw [h'.offsetOf_eq hq' (.inr hkids')]
    rfl
  · rw [h'.base_of_leaf hnew hleaf, Outline.word_graft_self]

/-- One slot less is free, but for those of a block that has come into use. -/
theorem freeSlots_graft (h : p.Lays c T off) (h' : p'.Lays c (T.graft c q x) off') (hq : T.Mem q)
    (hx : x ∉ T.kids q) (hsize : p'.size = p.size ∨ p'.size = p.size + blockSize) :
    ∃ added, p'.blocksInUse = p.blocksInUse + added ∧
      (p'.size < 18446744073709551616 → p'.freeSlots + 1 = p.freeSlots + blockSize * added) := by
  have hcount := h.sound.ncard_graft hq hx h.finite_nodes
  have hfree := h.freeSlots_add
  have hfree' := h'.freeSlots_add
  rw [hcount] at hfree'
  unfold blocksInUse
  rcases hsize with hsize | hsize
  · exact ⟨0, by rw [hsize]; rfl, fun hlt => by omega⟩
  · refine ⟨1, by rw [hsize]; exact Nat.add_div_right _ (by decide), fun hlt => ?_⟩
    have := hfree' hlt
    have := hfree (by omega)
    omega

/-- **What has become of a conflict** that has put the children of one node to another offset. -/
theorem settles_of (h : p.Lays c T off) (hM : T.Holds c [] M)
    (h' : p'.Lays c (T.graft c q x) (Function.update off w k)) (hq : T.Mem q) (hkids : T.kids q ≠ [])
    (hx : x ∉ T.kids q) (hsize : p'.size = p.size ∨ p'.size = p.size + blockSize) :
    p.Settles c q x w p' (locate (Function.update off w k) (x :: q)) where
  nodes t := by
    simp only [h.reaches_iff, h'.reaches_iff, exists_and_left, exists_eq', and_true]
    exact h.sound.mem_graft hq hx t
  once n t t' ht ht' := by
    obtain ⟨hmt, rfl⟩ := h'.reaches_iff.mp ht
    obtain ⟨hmt', hloc⟩ := h'.reaches_iff.mp ht'
    exact h'.locate_inj hmt hmt' hloc.symm
  used n := by
    rw [h'.mem_usedSlots]
    simp only [h'.reaches_iff]
  children n n' t ht ht' hterm := by
    obtain ⟨hmt, rfl⟩ := h.reaches_iff.mp ht
    obtain ⟨-, rfl⟩ := h'.reaches_iff.mp ht'
    exact h.children_graft hM h' hq hx hmt hterm
  word n n' t ht ht' hleaf := by
    obtain ⟨hmt, rfl⟩ := h.reaches_iff.mp ht
    obtain ⟨-, rfl⟩ := h'.reaches_iff.mp ht'
    exact h.base_graft h' hq hkids hx hmt hleaf
  value n n' t ht ht' hterm hxt := by
    obtain ⟨hmt, rfl⟩ := h.reaches_iff.mp ht
    obtain ⟨-, rfl⟩ := h'.reaches_iff.mp ht'
    exact h.valueAt_graft h' hq hkids hx hmt hterm hxt
  moved n n' t ht ht' hne := by
    obtain ⟨-, rfl⟩ := h.reaches_iff.mp ht
    obtain ⟨-, rfl⟩ := h'.reaches_iff.mp ht'
    by_contra hother
    rw [not_exists] at hother
    exact hne (locate_update_of_ne hother)
  check n n' l t ht ht' := by
    obtain ⟨-, rfl⟩ := h'.reaches_iff.mp ht
    obtain ⟨hmt', rfl⟩ := h'.reaches_iff.mp ht'
    exact h'.check_cons hmt'
  new := h.reaches_graft h' hq hx
  free := h.freeSlots_graft h' hq hx hsize

/-- **A conflict is settled**, in a pool whose nodes are all of use. -/
theorem settles (h : p.Lays c T off) (hM : T.Holds c [] M) (hq : T.Mem q) (hq0 : q ≠ [])
    (hkids : T.kids q ≠ []) (hx : x ∉ T.kids q) (hcheck : 0 ≤ (p.slot (off q ^^^ x.toNat)).check) :
    ∃ mine o u theirs, p.Conflict c ⟨locate off q, off q, x⟩ q mine o u theirs ∧
      p.Settles c q x (if mine.length + 1 ≤ theirs.length then q else u)
        (p.relocate c ⟨locate off q, off q, x⟩).1 (p.relocate c ⟨locate off q, off q, x⟩).2 := by
  obtain ⟨u, y, k, hcontest, howner, hlays, hslot⟩ := h.resolve hq hq0 hkids hx hcheck
  have hterm := head?_ne_zero h.sound hcontest.held
  obtain ⟨l, hl⟩ := List.exists_mem_of_ne_nil _ hkids
  refine ⟨T.kids q, locate off u, u, T.kids u, ⟨h.reaches_iff.mpr ⟨hq, rfl⟩,
    h.children_kids hM hq (head?_ne_zero h.sound hl), howner, h.reaches_iff.mpr ⟨hcontest.owner, rfl⟩,
    h.children_kids hM hcontest.owner hterm, hcontest.apart.symm⟩, ?_⟩
  rw [hslot]
  exact h.settles_of hM hlays hq hkids hx (size_relocate ..)

end Pool.Lays

/-! ### While a value is stored -/

/-- **Whenever a child is asked for** the pool holds a trie, and no node is without use but those that
lead to the node that asks. -/
theorem Pool.Asks.lays {c : Config} {p r : Pool} {n m : Nat} {labels : Key} {x : UInt8}
    {T : Outline} {off : Trail → Nat} {q : Trail} {M : Trail → Option Int32}
    (h : Asks c p n labels r m x) (hlays : p.Lays c T off) (hM : T.Holds c q M) (hq : T.Mem q)
    (h0 : 0 ∉ q) (hlabels : 0 ∉ labels) (hn : locate off q = n) (hend : q ≠ [] ∨ labels ≠ []) :
    ∃ T' off' q', r.Lays c T' off' ∧ T'.Holds c q' M ∧ T'.Mem q' ∧ 0 ∉ q' ∧ locate off' q' = m ∧
      (q' ≠ [] ∨ x ≠ 0) := by
  induction h generalizing T off q with
  | terminal hholds =>
    subst hn
    exact ⟨T, off, q, hlays, hM, hq, h0, rfl, .inl ((hlays.holdsValue_base hq).mp hholds).1⟩
  | @child p n label labels =>
    subst hn
    obtain ⟨off', hlays', hself⟩ := hlays.openLeaf hq h0
    have hlabel : label ≠ 0 := fun hl => hlabels (by rw [hl]; exact List.mem_cons_self)
    exact ⟨_, off', q, hlays', hM.openLeaf hlays.sound hq h0,
      (Outline.mem_openLeaf hlays.sound hq h0).mpr hq, h0, hself, .inr hlabel⟩
  | @later p r n m label x labels _ ih =>
    subst hn
    rw [List.mem_cons, not_or] at hlabels
    have hlabel : label ≠ 0 := Ne.symm hlabels.1
    have hsound := hlays.sound
    have hq' := (Outline.mem_openLeaf hsound hq h0).mpr hq
    obtain ⟨off₁, hopen, hself⟩ := hlays.openLeaf hq h0
    obtain ⟨off₂, hensure, hslot⟩ := hopen.ensureChild hq' (.inr hlabel) (Outline.ne_terminal h0)
    rw [hself] at hensure hslot
    have hlq : 0 ∉ label :: q := by
      rw [List.mem_cons, not_or]
      exact ⟨hlabels.1, h0⟩
    exact ih hensure ((hM.openLeaf hsound hq h0).ensure hopen.sound hq'
      (Outline.leafValue?_openLeaf c T q) hlabel h0) (Outline.mem_ensure_self hopen.sound hq' label)
      hlq hlabels.2 hslot.symm (.inl (by simp))
  | value =>
    subst hn
    exact ⟨T, off, q, hlays, hM, hq, h0, rfl, .inl (hend.resolve_right fun h => h rfl)⟩

namespace Trie

variable {t : Trie} {M : Entries} {key : Key} {value : Int32} {p : Pool} {n k : Nat} {x : UInt8}

/-- **Every conflict while a value is stored is settled.** -/
theorem Holds.settles (h : t.Holds M) (hrefusal : refusal t.config.encoding key value = none)
    (hasks : Pool.Asks t.config t.pool 0 key p n x)
    (hoffset : t.config.encoding.offset? (p.slot n).base = some k)
    (htaken : 0 ≤ (p.slot (k ^^^ x.toNat)).check) (hother : (p.slot (k ^^^ x.toNat)).check ≠ n) :
    p.ensureChild t.config n x = p.relocate t.config ⟨n, k, x⟩ ∧
      ∃ q mine o u theirs, p.Conflict t.config ⟨n, k, x⟩ q mine o u theirs ∧
        p.Settles t.config q x (if mine.length + 1 ≤ theirs.length then q else u)
          (p.relocate t.config ⟨n, k, x⟩).1 (p.relocate t.config ⟨n, k, x⟩).2 := by
  obtain ⟨T₀, off₀, hlays₀, hM₀⟩ := h
  obtain ⟨hkey, h0key, -⟩ := refusal_eq_none hrefusal
  obtain ⟨T, off, q, hlays, hM, hq, h0, rfl, hroot⟩ :=
    hasks.lays hlays₀ hM₀ trivial (by simp) h0key rfl (.inr hkey)
  refine ⟨?_, q, ?_⟩
  · unfold Pool.ensureChild
    rw [hoffset]
    dsimp only
    rw [if_neg (not_lt.mpr htaken), if_neg hother]
  · rw [hlays.offset?_base hq (Outline.ne_terminal h0)] at hoffset
    split_ifs at hoffset with hk
    obtain rfl := Option.some.inj hoffset
    have hx : x ∉ T.kids q := mt (hlays.check_eq_iff hq hk x).mpr hother
    have hq0 : q ≠ [] := by
      rintro rfl
      exact hx (hlays.mem_kids_root htaken)
    have hkids := hk.resolve_left hq0
    exact hlays.settles (hM.close_of_kids hq h0 hkids) hq hq0 hkids hx htaken

/-- **Conflicts are settled without a trace**, in every pool that comes up while a value is stored
after any calls on a new trie: the tree is the same but for the new child, and of the two nodes that
wanted a slot the one with fewer children has them elsewhere. -/
theorem settles_run {o : Options} {e : Encoding} (hcreate : Trie.create e o = .ok t)
    (calls : List Call) (hrefusal : refusal e key value = none)
    (hasks : Pool.Asks t.config (t.run calls).1.pool 0 key p n x)
    (hoffset : e.offset? (p.slot n).base = some k) (htaken : 0 ≤ (p.slot (k ^^^ x.toNat)).check)
    (hother : (p.slot (k ^^^ x.toNat)).check ≠ n) :
    p.ensureChild t.config n x = p.relocate t.config ⟨n, k, x⟩ ∧
      ∃ q mine o u theirs, p.Conflict t.config ⟨n, k, x⟩ q mine o u theirs ∧
        p.Settles t.config q x (if mine.length + 1 ≤ theirs.length then q else u)
          (p.relocate t.config ⟨n, k, x⟩).1 (p.relocate t.config ⟨n, k, x⟩).2 := by
  obtain ⟨ho, rfl⟩ := validate_of_create hcreate
  obtain ⟨hholds, hconfig, -⟩ := run_holds ho e calls
  have hsettles := @Holds.settles _ _ key value p n k x hholds
  rw [hconfig] at hsettles
  exact hsettles hrefusal hasks hoffset htaken hother

/-- A node that asks for its own slot: in the standard encoding the node of `[97, 97]` is in slot `256`
and has its children at offset `257`. -/
theorem asks_own_slot :
    let p := ((Trie.empty { encoding := .standard }).run [.insert [97, 97] 1]).1.pool
    Pool.Asks { encoding := .standard } p 0 [97, 97, 1] p 256 1 ∧
      Encoding.standard.offset? (p.slot 256).base = some 257 ∧ (p.slot 256).check = 97 := by
  intro p
  obtain ⟨hwalk, hoffset, hcheck⟩ : p.walk { encoding := .standard } 0 [97, 97] = some 256 ∧
      Encoding.standard.offset? (p.slot 256).base = some 257 ∧ (p.slot 256).check = 97 := by
    decide +kernel
  have hasks : Pool.Asks _ p 0 ([97, 97] ++ [1]) p 256 1 := .of_walk hwalk hoffset
  exact ⟨hasks, hoffset, hcheck⟩

/-- A node asks for its own slot, the only child of its parent. -/
theorem settles_run_standard : ∃ t, Trie.create .standard {} = .ok t ∧
    let p := (t.run [.insert [97, 97] 1]).1.pool
    Pool.Asks t.config p 0 [97, 97, 1] p 256 1 ∧ (p.slot 256).check = 97 ∧
    ∃ q mine o u theirs, p.Conflict t.config ⟨256, 257, 1⟩ q mine o u theirs ∧
      p.Settles t.config q 1 (if mine.length + 1 ≤ theirs.length then q else u)
        (p.relocate t.config ⟨256, 257, 1⟩).1 (p.relocate t.config ⟨256, 257, 1⟩).2 := by
  have h := (create_eq (o := {}) rfl .standard).1
  refine ⟨_, h, ?_⟩
  intro p
  obtain ⟨hasks, hoffset, hcheck⟩ := asks_own_slot
  have hrefusal : refusal .standard [97, 97, 1] 1 = none := by decide
  have htaken : (p.slot (257 ^^^ (1 : UInt8).toNat)).check = 97 := hcheck
  exact ⟨hasks, hcheck, (settles_run (p := p) h _ hrefusal hasks hoffset (by omega) (by omega)).2⟩

end Trie

end DoubleArrayTrie
