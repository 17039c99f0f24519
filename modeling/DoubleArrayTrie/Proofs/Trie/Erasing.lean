import DoubleArrayTrie.Trie.Erase
import DoubleArrayTrie.Proofs.Trie.Reading
import DoubleArrayTrie.Proofs.Trie.Linking

/-!
# Erasing a key

Erasing gives back slots from the end of the key upwards. When a node has lost its only child its
slot still says that it has one, but the node is the next to go: `Pool.Frayed` is the layout of an
outline but for what that slot says about children.

* `Frayed.giveBack`, `Frayed.unlink`: a node goes, with its parent to follow or not.
* `Frayed.prune`: all nodes go that are of no use.
* `Lays.erase`: the outline is without the key, and what was stored for it is returned.
-/

namespace DoubleArrayTrie

namespace Outline

variable {c : Config} {T : Outline} {off loc : Trail → Nat} {q v : Trail} {l x : UInt8}

theorem chain_cut_self (hT : T.Sound c) (hl : l ∈ T.kids q) :
    (T.cut c q l).chain q = (T.chain q).erase l := by
  unfold chain
  split_ifs with hq
  · subst hq
    have hl0 : ¬ (0 : UInt8) = l := by
      rintro rfl
      exact hT.root hl
    rw [kids_cut_self, List.erase_cons, if_neg (by simpa using hl0)]
  · exact kids_cut_self c T q l

theorem chain_cut_of_ne (h : v ≠ q) (l : UInt8) : (T.cut c q l).chain v = T.chain v := by
  unfold chain
  split_ifs with hv
  · rw [kids_cut_of_ne (hv ▸ h)]
  · exact kids_cut_of_ne h l

/-- A slot outside of the chain of node `q` names the same sibling when the chain gets shorter. -/
theorem Sound.slot_sibling_cut_of_ne (hT : T.Sound c) (hmem : T.Mem v) (hv : ∀ m, v ≠ sib q m) :
    ((T.cut c q l).slot c off loc v).sibling = (T.slot c off loc v).sibling := by
  rcases v with _ | ⟨m, u⟩
  · have hq : [] ≠ q := by
      rintro rfl
      exact hv 0 rfl
    simp only [slot, kids_cut_of_ne hq]
  · have huq : u ≠ q := by
      rintro rfl
      exact hv m (hT.sib_eq_cons hmem.2).symm
    simp only [slot, kids_cut_of_ne huq]

/-- Away from the chain of node `q` slots hold what they held. -/
theorem slot_cut_of_ne (hv : v ≠ q) (hparent : ∀ m, v ≠ m :: q) :
    (T.cut c q l).slot c off loc v = T.slot c off loc v := by
  rcases v with _ | ⟨m, u⟩
  · simp only [slot, kids_cut_of_ne hv]
  · have huq : u ≠ q := by
      rintro rfl
      exact hparent m rfl
    simp only [slot, kids_cut_of_ne hv, kids_cut_of_ne huq, word_cut_of_ne hv]

end Outline

namespace Pool

variable {c : Config} {p : Pool} {T : Outline} {off : Trail → Nat} {data : Trail → Slot}
  {t q : Trail} {l : UInt8} {fuel : Nat}

/-- The pool lays out an outline, but the slot of node `t`, which is to go, may say anything about
its children. -/
structure Frayed (c : Config) (p : Pool) (T : Outline) (off : Trail → Nat) (t : Trail)
    (data : Trail → Slot) : Prop where
  sound : T.Sound c
  draws : p.Draws c T.Mem (locate off) data
  same : ∀ v, T.Mem v → v ≠ t → data v = T.slot c off (locate off) v
  check : (data t).check = (T.slot c off (locate off) t).check
  sibling : (data t).sibling = (T.slot c off (locate off) t).sibling
  root : off [] = 0
  deep : ∀ v, v ≠ [] → T.kids v ≠ [] → blockSize ≤ off v
  mem : T.Mem t
  leaf : T.kids t = []

theorem Lays.frayed (h : p.Lays c T off) (ht : T.Mem t) (hleaf : T.kids t = []) :
    p.Frayed c T off t (T.slot c off (locate off)) :=
  ⟨h.sound, h.draws, fun _ _ _ => rfl, rfl, rfl, h.root, h.deep, ht, hleaf⟩

namespace Frayed

theorem sibling_eq (h : p.Frayed c T off t data) {v : Trail} (hv : T.Mem v) :
    (data v).sibling = (T.slot c off (locate off) v).sibling := by
  by_cases hvt : v = t
  · rw [hvt, h.sibling]
  · rw [h.same v hv hvt]

/-- The chain of the parent of the node that is to go. -/
theorem chain (h : p.Frayed c T off (l :: q) data) :
    Draws.Chain T.Mem (locate off) data q (off q) (T.chain q) where
  labels := h.sound.isLabels_chain q
  mem := h.mem.1
  mems _ hm := Outline.mem_sib hm h.mem.1
  locs m _ := Outline.locate_sib h.root q m
  child := by rw [h.same q h.mem.1 (by simp), Outline.slot_child]
  sibling m hm := by rw [h.sibling_eq (Outline.mem_sib hm h.mem.1), Outline.slot_sibling]

theorem deep_cut (h : p.Frayed c T off (l :: q) data) {v : Trail} (hv : v ≠ [])
    (hk : (T.cut c q l).kids v ≠ []) : blockSize ≤ off v := by
  refine h.deep v hv fun hempty => hk ?_
  by_cases hvq : v = q
  · subst hvq
    rw [Outline.kids_cut_self, hempty]
    rfl
  · rw [Outline.kids_cut_of_ne hvq, hempty]

/-- The slot of an only child is given back, and its parent is the next to go. -/
theorem giveBack (h : p.Frayed c T off (l :: q) data) (honly : T.kids q = [l]) (hq0 : q ≠ []) :
    (p.release c (locate off (l :: q))).Frayed c (T.cut c q l) off q data := by
  have hl := h.mem.2
  have hmem := h.sound.mem_cut (c := c) h.leaf
  have h0 : locate off (l :: q) ≠ 0 := fun hzero => by
    simpa using h.draws.inj (l :: q) [] h.mem trivial hzero
  have hdraws := (h.draws.release h.mem h0).congr hmem (fun _ _ => rfl) fun _ _ => rfl
  have hslot : (T.cut c q l).slot c off (locate off) q = { T.slot c off (locate off) q with
      base := (T.cut c q l).word q, child := 0 } := by
    obtain ⟨m, u, rfl⟩ := List.exists_cons_of_ne_nil hq0
    simp only [Outline.slot, Outline.kids_cut_self, honly, List.erase_cons_head, if_true,
      List.headD_nil, Outline.kids_cut_of_ne (show u ≠ m :: u by simp)]
  have hdata := h.same q h.mem.1 (by simp)
  refine ⟨h.sound.cut hl h.leaf, hdraws, fun v hv hvq => ?_, ?_, ?_, h.root,
    fun v hv hk => h.deep_cut hv hk, (hmem q).mpr ⟨h.mem.1, by simp⟩, ?_⟩
  · obtain ⟨hv, hvl⟩ := (hmem v).mp hv
    rw [h.same v hv hvl, Outline.slot_cut_of_ne hvq]
    rintro m rfl
    have hm := hv.2
    rw [honly, List.mem_singleton] at hm
    exact hvl (by rw [hm])
  · rw [hdata, hslot]
  · rw [hdata, hslot]
  · rw [Outline.kids_cut_self, honly, List.erase_cons_head]

/-- A child with siblings is linked out and its slot given back. -/
theorem unlink (h : p.Frayed c T off (l :: q) data) (hmany : ¬ (T.kids q = [l] ∧ q ≠ [])) :
    ((p.unlinkChild (locate off q) (off q) l).release c (locate off (l :: q))).Lays c (T.cut c q l)
      off := by
  have hl := h.mem.2
  have hmem := h.sound.mem_cut (c := c) h.leaf
  have h0 : locate off (l :: q) ≠ 0 := fun hzero => by
    simpa using h.draws.inj (l :: q) [] h.mem trivial hzero
  obtain ⟨data', hdraws, hrel⟩ := h.draws.unlinkChild h.chain (Outline.mem_chain_of_mem hl)
  rw [← Outline.chain_cut_self h.sound hl] at hrel
  refine ⟨h.sound.cut hl h.leaf, (hdraws.release h.mem h0).congr hmem (fun _ _ => rfl)
    fun v hv => ?_, h.root, fun v hv hk => h.deep_cut hv hk⟩
  obtain ⟨hv, hvl⟩ := hv
  have hsame := h.same v hv hvl
  have hsibling : (data' v).sibling = ((T.cut c q l).slot c off (locate off) v).sibling := by
    by_cases hex : ∃ m, v = sib q m
    · obtain ⟨m, rfl⟩ := hex
      have hml : m ≠ l := by
        rintro rfl
        exact hvl (h.sound.sib_eq_cons hl)
      have hm : m ∈ (T.cut c q l).chain q := by
        rw [Outline.chain_cut_self h.sound hl, List.mem_erase_of_ne hml]
        exact Outline.mem_chain_of_mem_sib hv
      rw [hrel.sibling m hm, Outline.slot_sibling]
    · have hne : ∀ m, v ≠ sib q m := fun m hm => hex ⟨m, hm⟩
      rw [hrel.sibling_of_ne v hne, hsame, h.sound.slot_sibling_cut_of_ne hv hne]
  have hcheck : ((T.cut c q l).slot c off (locate off) v).check =
      (T.slot c off (locate off) v).check := by
    cases v <;> rfl
  symm
  by_cases hvq : v = q
  · subst hvq
    have hbase : ((T.cut c v l).slot c off (locate off) v).base =
        (T.slot c off (locate off) v).base := by
      rcases v with _ | ⟨m, u⟩
      · rfl
      · have hkids : (T.cut c (m :: u) l).kids (m :: u) ≠ [] := by
          rw [Outline.kids_cut_self]
          exact fun hempty => hmany ⟨eq_singleton_of_erase hl hempty, by simp⟩
        simp only [Outline.slot, hkids, List.ne_nil_of_mem hl, if_false]
    refine Slot.ext ?_ ?_ hsibling ?_
    · rw [hrel.base, hsame, hbase]
    · rw [hrel.check, hsame, hcheck]
    · rw [hrel.child, Outline.slot_child]
  · have hbase : ((T.cut c q l).slot c off (locate off) v).base =
        (T.slot c off (locate off) v).base := by
      cases v <;> simp only [Outline.slot, Outline.kids_cut_of_ne hvq, Outline.word_cut_of_ne hvq]
    refine Slot.ext ?_ ?_ hsibling ?_
    · rw [hrel.base, hsame, hbase]
    · rw [hrel.check, hsame, hcheck]
    · rw [hrel.child_of_ne v hvq, hsame, Outline.slot_child, Outline.slot_child,
        Outline.chain_cut_of_ne hvq]

/-- Whether the node that is to go has siblings, as the slots tell. -/
theorem sibling_ne_zero_iff (h : p.Frayed c T off (l :: q) data) :
    (p.slot (off q ^^^ (p.slot (locate off q)).child.toNat)).sibling ≠ 0 ↔
      ¬ (T.kids q = [l] ∧ q ≠ []) := by
  have hlinks := h.chain.links h.draws
  have hlabels := h.chain.labels
  rw [h.chain.child_eq h.draws]
  have hlchain := Outline.mem_chain_of_mem h.mem.2
  obtain ⟨a, ls, hls⟩ := List.exists_cons_of_ne_nil (List.ne_nil_of_mem hlchain)
  rw [hls] at hlinks hlabels ⊢
  rw [List.headD_cons, hlinks.sibling_head]
  have hzero : ls.headD 0 ≠ 0 ↔ ls ≠ [] := by
    rcases ls with _ | ⟨b, ls⟩
    · simp
    · simp only [List.headD_cons, ne_eq, reduceCtorEq, not_false_eq_true, iff_true]
      rintro rfl
      exact hlabels.tail (by simp)
  rw [hzero, not_iff_not]
  unfold Outline.chain at hls
  split_ifs at hls with hq
  · subst hq
    obtain ⟨-, rfl⟩ := List.cons.inj hls
    simp [List.ne_nil_of_mem h.mem.2]
  · have hl := h.mem.2
    rw [hls] at hl ⊢
    simp only [List.cons.injEq, hq, not_false_eq_true, ne_eq, and_true]
    refine ⟨fun hnil => ⟨?_, hnil⟩, And.right⟩
    rw [hnil, List.mem_singleton] at hl
    exact hl.symm

theorem check_eq (h : p.Frayed c T off (l :: q) data) :
    (p.slot (locate off (l :: q))).check = locate off q := by
  rw [h.draws.slot_eq h.mem, h.check]
  rfl

theorem base_eq (h : p.Frayed c T off (l :: q) data) :
    (p.slot (locate off q)).base = c.encoding.ofOffset (off q) := by
  have hk : T.kids q ≠ [] := List.ne_nil_of_mem h.mem.2
  rw [h.draws.slot_eq h.mem.1, h.same q h.mem.1 (by simp)]
  rcases q with _ | ⟨m, u⟩
  · rfl
  · exact if_neg hk

theorem offsetOf_eq (h : p.Frayed c T off (l :: q) data) : p.offsetOf c (locate off q) = off q := by
  unfold offsetOf
  rw [h.base_eq, Encoding.offset_ofOffset, Int.toNat_natCast]

/-- The label of a child is what its slot differs by from the offset of its parent. -/
theorem ofNat_xor_locate (off : Trail → Nat) (q : Trail) (l : UInt8) :
    UInt8.ofNat (off q ^^^ locate off (l :: q)) = l := by
  rw [locate_cons, ← Nat.xor_assoc, Nat.xor_self, Nat.zero_xor, UInt8.ofNat_toNat]

/-- One step upwards. -/
theorem prune_succ (h : p.Frayed c T off (l :: q) data) (fuel : Nat) :
    p.prune c (fuel + 1) (locate off (l :: q)) =
      if T.kids q = [l] ∧ q ≠ [] then
        (p.release c (locate off (l :: q))).prune c fuel (locate off q)
      else (p.unlinkChild (locate off q) (off q) l).release c (locate off (l :: q)) := by
  have hmany := h.sibling_ne_zero_iff
  conv => lhs; unfold Pool.prune
  dsimp only
  rw [h.check_eq, Int.toNat_natCast, h.offsetOf_eq, ofNat_xor_locate]
  split_ifs with hsome honly honly
  · exact absurd honly (hmany.mp hsome)
  · rfl
  · rfl
  · exact absurd (hmany.mpr honly) hsome

/-- **All nodes go that are of no use.** -/
theorem prune (h : p.Frayed c T off (l :: q) data) (hfuel : (l :: q).length ≤ fuel) :
    (p.prune c fuel (locate off (l :: q))).Lays c (T.prune c (l :: q)) off := by
  obtain ⟨fuel, rfl⟩ : ∃ n, fuel = n + 1 := ⟨fuel - 1, by rw [List.length_cons] at hfuel; omega⟩
  induction q generalizing p T l data fuel with
  | nil =>
    rw [h.prune_succ]
    unfold Outline.prune
    rw [if_neg fun hc => hc.2 rfl, if_neg fun hc => hc.2 rfl]
    exact h.unlink fun hc => hc.2 rfl
  | cons m u ih =>
    rw [h.prune_succ]
    unfold Outline.prune
    split_ifs with honly
    · obtain ⟨fuel, rfl⟩ : ∃ n, fuel = n + 1 :=
        ⟨fuel - 1, by simp only [List.length_cons] at hfuel; omega⟩
      refine ih (h.giveBack honly.1 honly.2) fuel ?_
      simpa using hfuel
    · exact h.unlink honly

end Frayed

namespace Lays

/-- What stands in the slot of a value goes, and what is above it as far as it is of no use. -/
theorem prune (h : p.Lays c T off) (ht : T.Mem t) (ht0 : t ≠ []) (hleaf : T.kids t = [])
    (hfuel : t.length ≤ fuel) : (p.prune c fuel (locate off t)).Lays c (T.prune c t) off := by
  obtain ⟨l, q, rfl⟩ := List.exists_cons_of_ne_nil ht0
  exact (h.frayed ht hleaf).prune hfuel

/-- The slot of the value of a node is its own, or that of its terminal. -/
theorem valueSlot_eq (h : p.Lays c T off) (hq : T.Mem q) {w : Int} (hw : T.value? c q = some w) :
    p.valueSlot c (locate off q) = locate off (T.valueTrail q) := by
  have hholds := h.holdsValue_base hq
  unfold valueSlot Outline.valueTrail
  by_cases hkid : 0 ∈ T.kids q
  · have hkids := List.ne_nil_of_mem hkid
    rw [if_pos hkid, if_neg fun hc => hkids (hholds.mp hc).2.1, h.offsetOf_eq hq (.inr hkids)]
    exact (Nat.xor_zero _).symm
  · rw [Outline.value?, if_neg hkid, h.leafValue?_eq hq] at hw
    split_ifs at hw with hbase
    rw [if_neg hkid, if_pos hbase.1]

/-- The slot of the value of a node is that of a leaf. -/
theorem exists_valueSlot (h : p.Lays c T off) (hq : T.Mem q) {w : Int} (hw : T.value? c q = some w) :
    ∃ t, p.valueSlot c (locate off q) = locate off t ∧ T.Mem t ∧ t ≠ [] ∧ T.kids t = [] ∧
      t.length ≤ q.length + 1 ∧ T.erase c q = T.prune c t := by
  obtain ⟨hne, hkids⟩ := h.sound.leaf_valueTrail hw
  exact ⟨_, h.valueSlot_eq hq hw, Outline.mem_valueTrail hq, hne, hkids,
    T.length_valueTrail_le q, rfl⟩

/-- **A key that has a value is erased.** -/
theorem erase (h : p.Lays c T off) {key : Key} {w : Int} (h0 : 0 ∉ key) (hmem : T.Mem key.reverse)
    (hw : T.value? c key.reverse = some w) :
    (p.erase c key).1.Lays c (T.erase c key.reverse) off ∧
      (p.erase c key).2 = .found (Int32.ofInt w) := by
  have hterm := Outline.ne_terminal (show 0 ∉ key.reverse by rwa [List.mem_reverse])
  obtain ⟨t, hslot, ht, ht0, hleaf, hlen, herase⟩ := h.exists_valueSlot hmem hw
  rw [List.length_reverse] at hlen
  unfold Pool.erase
  rw [h.walk_root.mpr ⟨h0, hmem, rfl⟩]
  dsimp only
  rw [h.valueAt_eq hmem hterm, hw]
  refine ⟨?_, rfl⟩
  dsimp only [Lookup.ofValue]
  rw [hslot, herase]
  exact h.prune ht ht0 hleaf hlen

/-- A key that has no value is not erased. -/
theorem erase_of_noValue (h : p.Lays c T off) {key : Key} (h0 : 0 ∉ key) (hmem : T.Mem key.reverse)
    (hw : T.value? c key.reverse = none) : p.erase c key = (p, .noValue) := by
  have hterm := Outline.ne_terminal (show 0 ∉ key.reverse by rwa [List.mem_reverse])
  unfold Pool.erase
  rw [h.walk_root.mpr ⟨h0, hmem, rfl⟩]
  dsimp only
  rw [h.valueAt_eq hmem hterm, hw]
  rfl

/-- A key that leads out of the trie is not erased. -/
theorem erase_of_not (h : p.Lays c T off) {key : Key} (hmem : ¬ (0 ∉ key ∧ T.Mem key.reverse)) :
    p.erase c key = (p, .absent) := by
  unfold Pool.erase
  rw [h.walk_of_not hmem]

end Lays

end Pool

end DoubleArrayTrie
