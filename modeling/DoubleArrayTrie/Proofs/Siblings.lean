import DoubleArrayTrie.Proofs.Accounting
import DoubleArrayTrie.Proofs.Rooting

/-!
# Two ways to add a sibling

A new label comes into a chain in one of two ways. If its slot is free it is linked in by two writes
(`Pool.linkChild`); if the children have to move, the labels are gathered in a list and the chain is
linked anew from it. Both must put the label in the same place, or the order in which keys are listed
would tell whether there was a conflict.

* `Pool.gather`: the labels as they are gathered in one walk along the chain.
* `gather_eq`: in all pools that is the chain, with the new label where `insertLabel` puts it.
* `Pool.WellLinked`: the chains that come up.
* `WellLinked.ways_agree`: on these both ways agree, and what is linked in can be linked out again.
-/

namespace DoubleArrayTrie

/-- A chain, with a new label if it `joins`. -/
def joinLabel (ordered : Bool) (label : UInt8) (joins : Bool) (ls : List UInt8) : List UInt8 :=
  if joins then insertLabel ordered label ls else ls

theorem joinLabel_cons_of_before {o joins : Bool} {l x : UInt8} {ls : List UInt8}
    (h : l = 0 ∨ o = true ∧ l ≤ x) :
    joinLabel o x joins (l :: ls) = l :: joinLabel o x joins ls := by
  cases joins with
  | false => rfl
  | true => exact if_pos h

theorem joinLabel_cons_of_after {o joins : Bool} {l x : UInt8} {ls : List UInt8}
    (h : ¬ (l = 0 ∨ o = true ∧ l ≤ x)) :
    joinLabel o x joins (l :: ls) = (if joins then [x] else []) ++ l :: ls := by
  cases joins with
  | false => rfl
  | true => exact if_neg h

namespace Pool

variable {c : Config} {p : Pool} {T : Outline} {off : Trail → Nat} {M : Entries} {q : Trail}
  {o joins : Bool} {l x : UInt8} {ls pre post : List UInt8} {k n i : Nat}

/-! ### Gathering -/

/-- The labels of a chain from a label on, `0` at its end, with a new label if it `joins`: in an ordered
trie before the first that is above it, and else before all of these. At most so many are looked at. -/
def gatherFrom (ordered : Bool) (p : Pool) (k : Nat) (label : UInt8) (joins : Bool) :
    Nat → UInt8 → List UInt8
  | 0, _ => if joins then [label] else []
  | n + 1, l =>
      if ordered = true ∧ l ≠ 0 ∧ l ≤ label then
        l :: gatherFrom ordered p k label joins n (p.slot (k ^^^ l.toNat)).sibling
      else
        (if joins then [label] else []) ++ if l = 0 then [] else p.chainFrom k (n + 1) l

/-- The labels of the chain at offset `k` that starts with `first`, with a new label if it `joins`. A
terminal stays first. -/
def gather (ordered : Bool) (p : Pool) (k : Nat) (first label : UInt8) (joins : Bool) : List UInt8 :=
  if first = 0 then
    0 :: p.gatherFrom ordered k label joins (maxChildren - 1) (p.slot k).sibling
  else p.gatherFrom ordered k label joins maxChildren first

theorem gatherFrom_eq (o : Bool) (p : Pool) (k : Nat) (x : UInt8) (joins : Bool) (n : Nat)
    (l : UInt8) : p.gatherFrom o k x joins n l =
      joinLabel o x joins (if l = 0 then [] else p.chainFrom k n l) := by
  induction n generalizing l with
  | zero =>
    have hnone : (if l = 0 then [] else p.chainFrom k 0 l) = [] := ite_self _
    rw [hnone]
    rfl
  | succ n ih =>
    unfold gatherFrom
    by_cases hl : l = 0
    · rw [if_neg fun h => h.2.1 hl, if_pos hl, List.append_nil]
      rfl
    · rw [if_neg hl, ih]
      have hchain : p.chainFrom k (n + 1) l = l ::
          if (p.slot (k ^^^ l.toNat)).sibling = 0 then []
          else p.chainFrom k n (p.slot (k ^^^ l.toNat)).sibling := rfl
      rw [hchain]
      by_cases hle : o = true ∧ l ≤ x
      · rw [if_pos ⟨hle.1, hl, hle.2⟩, joinLabel_cons_of_before (.inr hle)]
      · rw [if_neg fun h => hle ⟨h.1, h.2.2⟩, joinLabel_cons_of_after (not_or.mpr ⟨hl, hle⟩)]

/-- **Gathering labels in one walk** yields the chain, with the new label where `insertLabel` puts
it. -/
theorem gather_eq (o : Bool) (p : Pool) (k : Nat) (first x : UInt8) (joins : Bool) :
    p.gather o k first x joins = joinLabel o x joins (p.chainFrom k maxChildren first) := by
  unfold gather
  split_ifs with hfirst
  · subst hfirst
    have hchain : p.chainFrom k maxChildren 0 = 0 ::
        if (p.slot (k ^^^ 0)).sibling = 0 then []
        else p.chainFrom k (maxChildren - 1) (p.slot (k ^^^ 0)).sibling := rfl
    rw [hchain, Nat.xor_zero, joinLabel_cons_of_before (.inl rfl), gatherFrom_eq]
  · rw [gatherFrom_eq, if_neg hfirst]

/-! ### Chains that are well linked -/

/-- The labels of the children of node `n` are a chain at offset `k`: none comes twice, that of the
terminal comes first, and in an ordered trie they ascend. -/
structure WellLinked (ordered : Bool) (p : Pool) (n k : Nat) (ls : List UInt8) : Prop where
  chain : p.Siblings k (p.slot n).child ls
  labels : IsLabels ls
  ascending : ordered = true → ls.Pairwise (· < ·)
  /-- The slots of the node and of all children that it may have are there. -/
  node : n < p.capacity
  block : ∀ l : UInt8, k ^^^ l.toNat < p.capacity

namespace WellLinked

theorem links (h : p.WellLinked o n k ls) : p.Links k ls := h.chain.links h.labels.nodup

theorem child_eq (h : p.WellLinked o n k ls) : (p.slot n).child = ls.headD 0 := by
  obtain ⟨ms, hms⟩ := h.chain.exists_cons
  rw [hms]
  rfl

theorem ne_nil (h : p.WellLinked o n k ls) : ls ≠ [] := by
  obtain ⟨ms, hms⟩ := h.chain.exists_cons
  rw [hms]
  simp

/-- **Following the links yields the labels.** -/
theorem chainFrom_eq (h : p.WellLinked o n k ls) :
    p.chainFrom k maxChildren (p.slot n).child = ls := by
  have hlinks := h.links
  have hlabels := h.labels
  obtain ⟨ms, hms⟩ := h.chain.exists_cons
  rw [hms] at hlinks hlabels ⊢
  exact Pool.chainFrom_eq hlinks hlabels hlabels.length_le

/-- Links that tell a chain make a node well linked. -/
theorem of_links (hlinks : p.Links k ls) (hne : ls ≠ []) (hchild : (p.slot n).child = ls.headD 0)
    (hlabels : IsLabels ls) (hascending : o = true → ls.Pairwise (· < ·)) (hnode : n < p.capacity)
    (hblock : ∀ l : UInt8, k ^^^ l.toNat < p.capacity) : p.WellLinked o n k ls where
  chain := by
    obtain ⟨l, ms, rfl⟩ := List.exists_cons_of_ne_nil hne
    rw [hchild]
    exact hlinks.siblings hlabels
  labels := hlabels
  ascending := hascending
  node := hnode
  block := hblock

end WellLinked

/-! ### Linking in and out -/

/-- What linking a label in writes. -/
theorem slot_linkBetween (hn : n < p.capacity) (hblock : ∀ l : UInt8, k ^^^ l.toNat < p.capacity)
    (i : Nat) : (p.linkBetween n k x pre post).slot i =
      { p.slot i with
        sibling := if k ^^^ x.toNat = i then post.headD 0
          else if pre.getLast?.map (k ^^^ ·.toNat) = some i then x else (p.slot i).sibling
        child := if pre = [] ∧ n = i then x else (p.slot i).child } := by
  unfold linkBetween setSibling setChild
  cases hlast : pre.getLast? with
  | none =>
    obtain rfl := List.getLast?_eq_none_iff.mp hlast
    simp only [slot_modifySlot, capacity_modifySlot]
    by_cases hx : k ^^^ x.toNat = i <;> by_cases hi : n = i
    all_goals subst_vars
    all_goals simp [*]
  | some a =>
    have hne : pre ≠ [] := by
      rintro rfl
      simp at hlast
    simp only [slot_modifySlot, capacity_modifySlot]
    by_cases hx : k ^^^ x.toNat = i <;> by_cases hi : k ^^^ a.toNat = i
    all_goals subst_vars
    all_goals simp [*]

theorem capacity_linkBetween : (p.linkBetween n k x pre post).capacity = p.capacity := by
  unfold linkBetween setSibling setChild
  rw [capacity_modifySlot]
  cases pre.getLast? <;> exact capacity_modifySlot ..

section

variable (hn : n < p.capacity) (hblock : ∀ l : UInt8, k ^^^ l.toNat < p.capacity)

include hn hblock

/-- The label before the new one names it, and it names the label after it. -/
theorem links_linkBetween (hlinks : p.Links k (pre ++ post)) (hnd : (pre ++ x :: post).Nodup) :
    (p.linkBetween n k x pre post).Links k (pre ++ x :: post) := by
  intro l hl
  have hlast : pre.getLast?.map (k ^^^ ·.toNat) = some (k ^^^ l.toNat) ↔ pre.getLast? = some l := by
    rw [Option.map_eq_some_iff]
    simp only [xor_label_inj, exists_eq_right]
  rw [slot_linkBetween hn hblock, nextLabel_insert hnd]
  simp only [xor_label_inj, hlast, @eq_comm _ x l]
  split_ifs with hlx
  · rfl
  · rfl
  · rw [List.mem_append, List.mem_cons, or_iff_right hlx, ← List.mem_append] at hl
    exact hlinks l hl

theorem child_linkBetween (hchild : (p.slot n).child = (pre ++ post).headD 0) :
    ((p.linkBetween n k x pre post).slot n).child = (pre ++ x :: post).headD 0 := by
  rw [slot_linkBetween hn hblock]
  rcases pre with _ | ⟨a, pre⟩
  · exact if_pos ⟨rfl, rfl⟩
  · simpa using hchild

/-- **Linking a label out again** leaves no trace but the sibling that its slot names. -/
theorem slot_unlinkChild_linkBetween (hlinks : p.Links k (pre ++ post))
    (hlabels : IsLabels (pre ++ x :: post)) (hchild : (p.slot n).child = (pre ++ post).headD 0)
    (i : Nat) : ((p.linkBetween n k x pre post).unlinkChild n k x).slot i =
      { p.slot i with
        sibling := if k ^^^ x.toNat = i then post.headD 0 else (p.slot i).sibling } := by
  obtain ⟨pre', post', hsplit, heq⟩ :=
    unlinkChild_eq (x := x) (links_linkBetween hn hblock hlinks hlabels.nodup) hlabels (by simp)
      (child_linkBetween hn hblock hchild)
  obtain ⟨-, htail, hapart⟩ := List.nodup_append.mp hlabels.nodup
  have hx : x ∉ pre := fun hmem => hapart x hmem x List.mem_cons_self rfl
  obtain ⟨rfl, -, rfl⟩ :=
    (List.append_cons_inj_of_notMem hx (List.nodup_cons.mp htail).1).mp hsplit
  rw [heq]
  cases hlast : pre.getLast? with
  | none =>
    obtain rfl := List.getLast?_eq_none_iff.mp hlast
    have hfirst : (p.slot n).child = post.headD 0 := hchild
    unfold setChild
    dsimp only
    rw [slot_modifySlot, capacity_linkBetween, slot_linkBetween hn hblock]
    by_cases hi : n = i
    · subst hi
      simp [hn, hfirst]
    · simp [hi]
  | some a =>
    have hne : pre ≠ [] := by
      rintro rfl
      simp at hlast
    have hbefore : (p.slot (k ^^^ a.toNat)).sibling = post.headD 0 := by
      have hnd : (pre ++ post).Nodup := hlabels.nodup.sublist (by simp)
      rw [hlinks a (List.mem_append_left _ (List.mem_of_getLast? hlast)), nextLabel_getLast hnd hlast]
    unfold setSibling
    dsimp only
    rw [slot_modifySlot, capacity_linkBetween, slot_linkBetween hn hblock, hlast]
    by_cases hi : k ^^^ a.toNat = i
    · subst hi
      rw [if_pos ⟨rfl, hblock a⟩, hbefore]
      simp only [hne, false_and, if_false, ite_self]
    · simp [hi, hne]

end

namespace WellLinked

/-- The labels that are gathered when the children are to move. -/
theorem gather_eq (h : p.WellLinked o n k ls) (x : UInt8) (joins : Bool) :
    p.gather o k (p.slot n).child x joins = joinLabel o x joins ls := by
  rw [Pool.gather_eq, h.chainFrom_eq]

/-- A label that is linked in comes where `insertLabel` puts it. -/
theorem exists_linkBetween (h : p.WellLinked o n k ls) (hx : x ∉ ls) :
    ∃ pre post, ls = pre ++ post ∧ insertLabel o x ls = pre ++ x :: post ∧
      p.linkChild o n k x true = p.linkBetween n k x pre post := by
  have hlink := linkChild_eq (o := o) h.links h.labels hx h.child_eq
  rwa [List.isEmpty_eq_false_iff.mpr h.ne_nil, Bool.not_false] at hlink

/-- **A chain with a new label** is well linked again. -/
theorem linkChild (h : p.WellLinked o n k ls) (hx : x ∉ ls) :
    (p.linkChild o n k x true).WellLinked o n k (insertLabel o x ls) := by
  have hlabels := h.labels.insertLabel hx o
  have hascending : o = true → (insertLabel o x ls).Pairwise (· < ·) := by
    rintro rfl
    exact pairwise_insertLabel (h.ascending rfl) hx
  obtain ⟨pre, post, rfl, hinsert, heq⟩ := h.exists_linkBetween hx
  rw [hinsert] at hlabels hascending ⊢
  rw [heq]
  refine .of_links (links_linkBetween h.node h.block h.links hlabels.nodup) (by simp)
    (child_linkBetween h.node h.block h.child_eq) hlabels hascending ?_ ?_
  · rw [capacity_linkBetween]
    exact h.node
  · rw [capacity_linkBetween]
    exact h.block

/-- **A label that is linked in and out again** leaves no trace but the sibling that its slot names. -/
theorem slot_unlinkChild (h : p.WellLinked o n k ls) (hx : x ∉ ls) (i : Nat) :
    ∃ m, ((p.linkChild o n k x true).unlinkChild n k x).slot i =
      { p.slot i with sibling := if k ^^^ x.toNat = i then m else (p.slot i).sibling } := by
  have hlabels := h.labels.insertLabel hx o
  obtain ⟨pre, post, rfl, hinsert, heq⟩ := h.exists_linkBetween hx
  rw [hinsert] at hlabels
  rw [heq]
  exact ⟨_, slot_unlinkChild_linkBetween h.node h.block h.links hlabels h.child_eq i⟩

/-- Records that name the same labels are linked as well. -/
theorem congr {p' : Pool} (h : p.WellLinked o n k ls) (hcapacity : p'.capacity = p.capacity)
    (hchild : (p'.slot n).child = (p.slot n).child)
    (hsibling : ∀ l ∈ ls, (p'.slot (k ^^^ l.toNat)).sibling = (p.slot (k ^^^ l.toNat)).sibling) :
    p'.WellLinked o n k ls := by
  refine .of_links (fun l hl => (hsibling l hl).trans (h.links l hl)) h.ne_nil
    (hchild.trans h.child_eq) h.labels h.ascending ?_ ?_
  · rw [hcapacity]
    exact h.node
  · rw [hcapacity]
    exact h.block

/-- So the chain is well linked as before. -/
theorem unlinkChild (h : p.WellLinked o n k ls) (hx : x ∉ ls) :
    ((p.linkChild o n k x true).unlinkChild n k x).WellLinked o n k ls := by
  refine h.congr (by rw [capacity_unlinkChild, capacity_linkChild]) ?_ fun l hl => ?_
  · obtain ⟨m, hslot⟩ := h.slot_unlinkChild hx n
    rw [hslot]
  · obtain ⟨m, hslot⟩ := h.slot_unlinkChild hx (k ^^^ l.toNat)
    have hxl : x ≠ l := by
      rintro rfl
      exact hx hl
    rw [hslot]
    exact if_neg (mt xor_label_inj.mp hxl)

/-- **The two ways to add a sibling agree.** Along a chain that is well linked the labels are gathered as
they are, and with a new label they are gathered as they stand once the label is linked in: the chain
is well linked again, and has one more label. When the label is linked out right afterwards, all slots
are as before, but for the sibling that the slot of the label names. -/
theorem ways_agree (h : p.WellLinked o n k ls) :
    p.gather o k (p.slot n).child 255 false = ls ∧ p.chain n k = ls ∧ ∀ x ∉ ls,
      let labels := p.gather o k (p.slot n).child x true
      let linked := p.linkChild o n k x true
      let unlinked := linked.unlinkChild n k x
      labels = insertLabel o x (p.chain n k) ∧ labels.Perm (x :: ls) ∧
        linked.chain n k = labels ∧ linked.WellLinked o n k labels ∧
        unlinked.WellLinked o n k ls ∧ ∀ i,
          unlinked.slot i = { p.slot i with sibling := (unlinked.slot i).sibling } ∧
            (i ≠ k ^^^ x.toNat → unlinked.slot i = p.slot i) := by
  have hchain : p.chain n k = ls := h.chainFrom_eq
  refine ⟨h.gather_eq 255 false, hchain, fun x hx => ?_⟩
  have hgather : p.gather o k (p.slot n).child x true = insertLabel o x ls := h.gather_eq x true
  have hlinked := h.linkChild hx
  rw [hchain, hgather]
  refine ⟨rfl, perm_insertLabel o x ls, hlinked.chainFrom_eq, hlinked, h.unlinkChild hx,
    fun i => ?_⟩
  obtain ⟨m, hslot⟩ := h.slot_unlinkChild hx i
  rw [hslot]
  refine ⟨rfl, fun hi => ?_⟩
  rw [if_neg (Ne.symm hi)]

end WellLinked

/-! ### The chains that come up -/

/-- The children of a node of a trie are well linked, but for those of the root, whose chain starts with
the root itself. -/
theorem Lays.wellLinked (h : p.Lays c T off) (hq : T.Mem q) (hq0 : q ≠ []) (hkids : T.kids q ≠ []) :
    p.WellLinked c.ordered (locate off q) (off q) (T.kids q) := by
  have hchain : T.chain q = T.kids q := if_neg hq0
  have hlinks := h.links_chain hq
  have hchild := h.child_eq hq
  rw [hchain] at hlinks hchild
  have hsize := h.draws.kept.size_le
  exact .of_links hlinks hkids hchild (h.sound.labels q) (fun ho => h.sound.ordered ho q)
    ((h.draws.lt_size hq).trans_le hsize)
    fun l => (h.draws.kept.xor_lt l (h.off_lt_size hq (.inr hkids))).trans_le hsize

end Pool

namespace Trie

/-- **All chains that come up in a trie are well linked**, after any calls and while one more value is
stored. -/
theorem ComesTo.wellLinked {o : Options} {e : Encoding} {t : Trie} {p : Pool} {n : Nat} {q : Trail}
    {ls : List UInt8} (hcreate : Trie.create e o = .ok t) (h : t.ComesTo p)
    (hreach : p.Reaches t.config n q) (hq0 : q ≠ []) (hterm : q.head? ≠ some 0)
    (hls : p.Children t.config n ls) (hne : ls ≠ []) :
    p.WellLinked t.config.ordered n (p.offsetOf t.config n) ls := by
  obtain ⟨T, off, hlays⟩ := h.lays hcreate
  obtain ⟨hq, rfl⟩ := hlays.reaches_iff.mp hreach
  obtain rfl := hlays.eq_kids hq hterm hls
  rw [hlays.offsetOf_eq hq (.inr hne)]
  exact hlays.wellLinked hq hq0 hne

/-- The keys `ab` and `ad` part after their first byte. -/
theorem exists_wellLinked : ∃ t, Trie.create .reduced {} = .ok t ∧ ∃ n k,
    (t.run [.insert [97, 98] 1, .insert [97, 100] 2]).1.pool.walk t.config 0 [97] = some n ∧
      (t.run [.insert [97, 98] 1, .insert [97, 100] 2]).1.pool.WellLinked true n k [98, 100] := by
  have h₁ : refusal .reduced [97, 98] 1 = none := by decide
  have h₂ : refusal .reduced [97, 100] 2 = none := by decide
  obtain ⟨⟨T, off, hlays, hM⟩, hconfig, -⟩ :=
    run_holds (o := {}) rfl .reduced [.insert [97, 98] 1, .insert [97, 100] 2]
  simp only [Entries.run, Entries.perform, h₁, h₂] at hM
  have hmem : ∀ key : Key, key ∈ Finmap.insert [97, 100] 2 (Finmap.insert [97, 98] 1 (∅ : Entries)) ↔
      key = [97, 100] ∨ key = [97, 98] := fun key => by
    simp [Finmap.mem_insert, Finmap.notMem_empty]
  have hstems : ∀ key : Key, key ∈ Entries.stems
      (Finmap.insert [97, 100] 2 (Finmap.insert [97, 98] 1 (∅ : Entries))) ↔
        key ≠ [] ∧ (key <+: [97, 100] ∨ key <+: [97, 98]) := fun key => by
    simp [Entries.mem_stems, hmem]
  have hq : T.Mem [97] :=
    (hM.mem_iff_stems (by decide) (by decide)).mpr ((hstems [97]).mpr (by decide))
  have hkids : ∀ l, l ∈ T.kids [97] ↔ l ∈ [98, 100] := fun l => by
    by_cases hl : l = 0
    · -- the byte alone is no key, so its node has no terminal
      subst hl
      refine iff_of_false (fun hterm => ?_) (by decide)
      have hended := (hM.mem_terminal_iff hlays.sound (q := [97])).mp ⟨hq, hterm⟩
      simp [hmem, Outline.mem_ended] at hended
    · rw [hM.mem_kids_iff hq (by decide) hl, hstems]
      simp [or_comm]
  have hperm : (T.kids [97]).Perm [98, 100] :=
    (List.perm_ext_iff_of_nodup (hlays.sound.labels [97]).nodup (by decide)).mpr hkids
  have hordered := hlays.sound.ordered (by rw [hconfig]) [97]
  have heq : T.kids [97] = [98, 100] :=
    hperm.eq_of_pairwise (fun _ _ _ _ h h' => absurd h' (UInt8.lt_asymm h)) hordered (by decide)
  have hwell := hlays.wellLinked hq (by simp) (by rw [heq]; simp)
  rw [heq, hconfig] at hwell
  refine ⟨_, (create_eq (o := {}) rfl .reduced).1, _, _, ?_, hwell⟩
  rw [hconfig] at hlays
  exact hlays.walk_root.mpr ⟨by decide, hq, rfl⟩

/-- A third label comes between theirs, whether it is linked in or gathered. -/
theorem ways_agree_between : ∃ t, Trie.create .reduced {} = .ok t ∧ ∃ p n k,
    (t.run [.insert [97, 98] 1, .insert [97, 100] 2]).1.pool = p ∧
      p.WellLinked true n k [98, 100] ∧
      p.gather true k (p.slot n).child 99 true = [98, 99, 100] ∧
      (p.linkChild true n k 99 true).chain n k = [98, 99, 100] ∧
      ((p.linkChild true n k 99 true).unlinkChild n k 99).WellLinked true n k [98, 100] := by
  obtain ⟨t, hcreate, n, k, -, hwell⟩ := exists_wellLinked
  obtain ⟨-, hchain, hagree⟩ := Pool.WellLinked.ways_agree hwell
  obtain ⟨hgather, -, hlinked, -, hunlinked, -⟩ := hagree 99 (by decide)
  rw [hchain] at hgather
  exact ⟨t, hcreate, _, n, k, rfl, hwell, hgather, hlinked.trans hgather, hunlinked⟩

end Trie

end DoubleArrayTrie
