import DoubleArrayTrie.Proofs.Trie.Shifting

/-!
# The children of a node make room for a new one

If the node that asks for a child has fewer children than the owner of the slot, its own children
move, and the new one takes its slot among them.

* `Joining.moveWith`: all children come to the new offset, one after the other.
* `Lays.joining`, `Joining.lays`: how the move starts and what it comes to.
-/

namespace DoubleArrayTrie

namespace Pool

variable {c : Config} {p : Pool} {T : Outline} {off loc : Trail → Nat} {q : Trail} {x : UInt8}
  {k : Nat}

/-- The nodes, when the children with the labels `ds` have come to the new offset. -/
def joined (T : Outline) (q : Trail) (x : UInt8) (ds : List UInt8) (v : Trail) : Prop :=
  T.Mem v ∨ v = x :: q ∧ x ∈ ds

/-- The pool while the children of node `q` move to offset `k`, with a new child `x` among them: those
with the labels `ds` are there. -/
def Joining (c : Config) (p : Pool) (T : Outline) (off : Trail → Nat) (q : Trail) (x : UInt8)
    (k : Nat) (ds : List UInt8) : Prop :=
  p.Draws c (joined T q x ds) (mix ds q (locate off) (locate (Function.update off q k)))
    ((T.graft c q x).slotNaming c (Function.update off q k)
      (mix ds q (locate off) (locate (Function.update off q k)))
      (mix ds q T.name (T.graft c q x).name))

variable (hT : T.Sound c) (hq : T.Mem q) (hx : x ∉ T.kids q)
include hT hq hx

theorem mem_graft_of_joined {ds : List UInt8} {v : Trail} (hv : joined T q x ds v) :
    (T.graft c q x).Mem v :=
  (hT.mem_graft hq hx v).mpr (hv.imp_right And.left)

/-- The new child takes its slot. -/
theorem Joining.occupy {ds : List UInt8} (h : p.Joining c T off q x k ds) (hxds : x ∉ ds)
    (hfree : p.Free (k ^^^ x.toNat)) : (p.settle c (locate off q) k x
      (nextLabel x ((T.graft c q x).kids q))).Joining c T off q x k (ds ++ [x]) := by
  have hnew : ¬ joined T q x ds (x :: q) := by
    rintro (hmem | ⟨-, hmem⟩)
    · exact hx hmem.2
    · exact hxds hmem
  have hoccupy := Draws.occupy h hfree hnew x (locate off q)
  have hsettle := hoccupy.setSibling (.inr rfl) (nextLabel x ((T.graft c q x).kids q))
  rw [Function.update_self] at hsettle
  have hloc : (mix (ds ++ [x]) q (locate off) (locate (Function.update off q k))) =
      Function.update (mix ds q (locate off) (locate (Function.update off q k))) (x :: q)
        (k ^^^ x.toNat) := by
    rw [mix_concat, locate_update_cons]
  refine hsettle.congr (fun v => ?_) (fun v _ => by rw [hloc]) fun v hv => ?_
  · unfold joined
    rw [List.mem_append, List.mem_singleton]
    tauto
  · have hkids : (T.graft c q x).kids (x :: q) = [] := by
      rw [Outline.kids_graft_of_ne x (by simp)]
      exact hT.outside _ fun hmem => hx hmem.2
    rw [hloc, mix_concat]
    unfold Outline.slotNaming
    by_cases hvx : v = x :: q
    · rw [hvx, Function.update_self, Function.update_self, Function.update_self,
        Outline.slot_update_loc, if_neg (by simp)]
      simp only [Outline.slot, hkids, if_true, Outline.word_graft_self, mix_self, List.headD_nil]
      rfl
    · have hnot : ¬ (v.tail = x :: q ∧ v ≠ []) := by
        rintro ⟨htail, hne⟩
        obtain ⟨m, v, rfl⟩ := List.exists_cons_of_ne_nil hne
        obtain rfl : v = x :: q := htail
        have hmem := (mem_graft_of_joined hT hq hx (hv.resolve_right hvx)).2
        rw [hkids] at hmem
        simp at hmem
      rw [Function.update_of_ne hvx, Function.update_of_ne hvx, Function.update_of_ne hvx,
        Outline.slot_update_loc, if_neg hnot]

/-- The graft is sound where the node that asks has children. -/
theorem sound_graft {l : UInt8} (hl : l ∈ T.kids q) (hq0 : q ≠ []) : (T.graft c q x).Sound c :=
  hT.graft hq hx (.inl hq0) fun r hr => by
    rw [hr, hT.terminal r] at hl
    simp at hl

variable (off k) in
/-- The children of a child that has not moved yet. -/
theorem Joining.below (ds : List UInt8) {l : UInt8} (hl : l ∈ T.kids q) (hq0 : q ≠ []) :
    Draws.Below c (joined T q x ds) (mix ds q (locate off) (locate (Function.update off q k)))
      ((T.graft c q x).slotNaming c (Function.update off q k)
        (mix ds q (locate off) (locate (Function.update off q k)))
        (mix ds q T.name (T.graft c q x).name)) l (l :: q) ((T.graft c q x).kids (l :: q)) := by
  have hmem : T.Mem (l :: q) := ⟨hq, hl⟩
  have hkids : (T.graft c q x).kids (l :: q) = T.kids (l :: q) :=
    Outline.kids_graft_of_ne x (by simp)
  have hbelow : ∀ {α : Type} (f g : Trail → α) (m : UInt8),
      mix ds q f g (m :: l :: q) = f (m :: l :: q) :=
    fun f g m => mix_of_not fun m' _ heq => by simp at heq
  have hjoined : joined T q x ds (l :: q) := .inl hmem
  refine Draws.below_of_sound (sound_graft hT hq hx hl hq0) (mem_graft_of_joined hT hq hx hjoined)
    (fun m hm => .inl ⟨hmem, hkids ▸ hm⟩) (fun m _ => ?_) fun m _ => ?_
  · rw [hbelow, Function.update_of_ne (by simp)]
    rfl
  · rw [hbelow, hkids]
    rfl

omit hT hx in
/-- The slot of a child is not that of the root. -/
theorem Joining.loc_ne_zero {ds : List UInt8} {l : UInt8} (h : p.Joining c T off q x k ds)
    (hl : l ∈ T.kids q) : mix ds q (locate off) (locate (Function.update off q k)) (l :: q) ≠ 0 := by
  intro hzero
  have hdraws := h.inj (l :: q) [] (.inl ⟨hq, hl⟩) (.inl trivial)
  have hnil : mix ds q (locate off) (locate (Function.update off q k)) [] = 0 := rfl
  simpa using hdraws (hzero.trans hnil.symm)

/-- A child that was there comes to the new offset. -/
theorem Joining.move {ds : List UInt8} {l : UInt8} (h : p.Joining c T off q x k ds)
    (hl : l ∈ T.kids q) (hlds : l ∉ ds) (hq0 : q ≠ [])
    (hfree : p.Free (k ^^^ l.toNat)) :
    (((p.settle c (locate off q) k l (nextLabel l ((T.graft c q x).kids q))).carry c
      (off q ^^^ l.toNat) (k ^^^ l.toNat) l).release c (off q ^^^ l.toNat)).Joining c T off q x k
        (ds ++ [l]) := by
  have hlx : l ≠ x := by rintro rfl; exact hx hl
  have hshift := Draws.shift_release (T := T.graft c q x) (u := q) (sound_graft hT hq hx hl hq0)
    (fun v hv => mem_graft_of_joined hT hq hx hv) h (.inl ⟨hq, hl⟩) (h.loc_ne_zero hq hl)
    (Joining.below off k hT hq hx ds hl hq0) hfree (nextLabel l ((T.graft c q x).kids q))
  rw [mix_self, mix_of_notMem hlds] at hshift
  unfold Joining
  rw [mix_concat, mix_concat, locate_update_cons]
  refine hshift.congr (fun v => ?_) (fun _ _ => rfl) fun _ _ => rfl
  unfold joined
  rw [List.mem_append, List.mem_singleton]
  simp only [Ne.symm hlx, or_false]

omit hT hq hx in
/-- The slots that children have not come to yet are free. -/
theorem Joining.free {ds : List UInt8} {l : UInt8} (h : p.Joining c T off q x k ds)
    (hsize : k < p.size) (hlds : l ∉ ds) (hfresh : ∀ t, T.Mem t → locate off t ≠ k ^^^ l.toNat) :
    p.Free (k ^^^ l.toNat) := by
  refine Draws.free_of_ne h (h.kept.xor_lt l hsize) fun t ht => ?_
  by_cases hex : ∃ m ∈ ds, t = m :: q
  · obtain ⟨m, hm, rfl⟩ := hex
    rw [mix_of_mem hm, locate_update_cons]
    intro heq
    obtain rfl := xor_label_inj.mp heq
    exact hlds hm
  · rw [mix_of_not fun m hm htm => hex ⟨m, hm, htm⟩]
    rcases ht with ht | ⟨rfl, hm⟩
    · exact hfresh t ht
    · exact absurd ⟨x, hm, rfl⟩ hex

/-- **All children come to the new offset**, one after the other. -/
theorem Joining.moveWith {ds rest : List UInt8} (h : p.Joining c T off q x k ds)
    (hsplit : (T.graft c q x).kids q = ds ++ rest) (hq0 : q ≠ []) (hsize : k < p.size)
    (hfresh : ∀ l ∈ rest, ∀ t, T.Mem t → locate off t ≠ k ^^^ l.toNat) :
    (p.moveWith c (locate off q) (off q) k x rest).Joining c T off q x k
      ((T.graft c q x).kids q) := by
  induction rest generalizing p ds with
  | nil =>
    rw [hsplit, List.append_nil]
    exact h
  | cons l rest ih =>
    have hlabels : IsLabels ((T.graft c q x).kids q) := by
      rw [Outline.kids_graft_self]
      exact (hT.labels q).insertLabel hx _
    obtain ⟨hlds, hnext⟩ := hlabels.of_split hsplit
    have hfree := h.free hsize hlds (hfresh l List.mem_cons_self)
    have hlmem : l = x ∨ l ∈ T.kids q := by
      rw [← mem_insertLabel (o := c.ordered), ← Outline.kids_graft_self, hsplit]
      simp
    have hstep : ∃ p' : Pool, p'.Joining c T off q x k (ds ++ [l]) ∧
        p.moveWith c (locate off q) (off q) k x (l :: rest) =
          p'.moveWith c (locate off q) (off q) k x rest := by
      unfold Pool.moveWith
      rw [withNext_cons, List.foldl_cons, hnext]
      dsimp only
      by_cases hlx : l = x
      · subst hlx
        rw [if_pos rfl]
        exact ⟨_, h.occupy hT hq hx hlds hfree, rfl⟩
      · rw [if_neg hlx]
        exact ⟨_, h.move hT hq hx (hlmem.resolve_left hlx) hlds hq0 hfree, rfl⟩
    obtain ⟨p', hp', heq⟩ := hstep
    have hjoined : joined T q x (ds ++ [l]) (l :: q) := by
      rcases hlmem with rfl | hl
      · exact .inr ⟨rfl, by simp⟩
      · exact .inl ⟨hq, hl⟩
    have hlt := Draws.lt_size hp' hjoined
    rw [mix_of_mem (by simp), locate_update_cons] at hlt
    have hlt' := hp'.kept.xor_lt l hlt
    rw [xor_label_cancel] at hlt'
    rw [heq]
    exact ih hp' (by rw [hsplit, List.append_assoc]; rfl) hlt' fun m hm =>
      hfresh m (List.mem_cons_of_mem _ hm)

omit hT hq in
theorem slot_graft_of_ne {v : Trail} (hv : T.Mem v) (hvq : v ≠ q) (loc : Trail → Nat)
    (σ : Trail → UInt8) :
    (T.graft c q x).slotNaming c (Function.update off q k) loc σ v = T.slotNaming c off loc σ v := by
  have hvx : v ≠ x :: q := by
    rintro rfl
    exact hx hv.2
  unfold Outline.slotNaming
  rcases v with _ | ⟨l, u⟩
  · simp only [Outline.slot, Function.update_of_ne hvq]
  · simp only [Outline.slot, Outline.kids_graft_of_ne x hvq, Outline.word_graft_of_ne hvx,
      Function.update_of_ne hvq]

omit hT hq hx in
theorem name_graft_of_ne {v : Trail} (hv : ∀ l, v ≠ l :: q) (hq0 : q ≠ []) :
    (T.graft c q x).name v = T.name v := by
  rcases v with _ | ⟨l, u⟩
  · simp only [Outline.name, Outline.kids_graft_of_ne x (Ne.symm hq0)]
  · have huq : u ≠ q := by
      rintro rfl
      exact hv l rfl
    simp only [Outline.name, Outline.kids_graft_of_ne x huq]

omit hT in
/-- Before the children move, node `q` is given their new offset, and its first child. -/
theorem Lays.joining (h : p.Lays c T off) (hq0 : q ≠ []) (hkids : T.kids q ≠ []) :
    ((if (insertLabel c.ordered x (T.kids q)).headD 0 = x then p.setChild (locate off q) x
      else p).setBase (locate off q) (c.encoding.ofOffset k)).Joining c T off q x k [] := by
  have hchild : ∃ data, (if (insertLabel c.ordered x (T.kids q)).headD 0 = x
      then p.setChild (locate off q) x else p).Draws c T.Mem (locate off) data ∧
      (∀ v, v ≠ q → data v = T.slot c off (locate off) v) ∧
      data q = { T.slot c off (locate off) q with
        child := (insertLabel c.ordered x (T.kids q)).headD 0 } := by
    split_ifs with hfirst
    · refine ⟨_, h.draws.setChild hq x, fun v hv => Function.update_of_ne hv .., ?_⟩
      rw [Function.update_self, hfirst]
    · refine ⟨_, h.draws, fun _ _ => rfl, ?_⟩
      -- a first child that is not the new one was the first before
      have hhead : (insertLabel c.ordered x (T.kids q)).headD 0 = (T.kids q).headD 0 := by
        obtain ⟨a, ls, hls⟩ := List.exists_cons_of_ne_nil hkids
        rw [hls] at hfirst ⊢
        unfold insertLabel at hfirst ⊢
        split_ifs at hfirst ⊢
        · rfl
        · exact absurd rfl hfirst
      obtain ⟨l, u, rfl⟩ := List.exists_cons_of_ne_nil hq0
      rw [hhead]
      rfl
  obtain ⟨data, hdraws, hother, hself⟩ := hchild
  refine (hdraws.setBase hq (c.encoding.ofOffset k)).congr (fun v => ?_) (fun v _ => mix_nil)
    fun v hv => ?_
  · unfold joined
    simp
  have hmix : ∀ {α : Type} (f g : Trail → α), mix [] q f g = f := fun f g => funext fun _ => mix_nil
  rw [hmix, hmix]
  by_cases hvq : v = q
  · subst hvq
    rw [Function.update_self, hself]
    obtain ⟨l, u, rfl⟩ := List.exists_cons_of_ne_nil hq0
    simp only [Outline.slotNaming, Outline.slot, Outline.kids_graft_self, insertLabel_ne_nil,
      if_false, Function.update_self, Outline.name]
  · rw [Function.update_of_ne hvq, hother v hvq,
      slot_graft_of_ne hx (by simpa [joined] using hv) hvq, Outline.slotNaming_name]

/-- When all children have come to the new offset the outline is the one with the new child. -/
theorem Joining.lays (h : p.Joining c T off q x k ((T.graft c q x).kids q)) (hq0 : q ≠ [])
    (hterm : ∀ r, q ≠ 0 :: r) (hroot : off [] = 0)
    (hdeep : ∀ t, t ≠ [] → T.kids t ≠ [] → blockSize ≤ off t) (hk : blockSize ≤ k) :
    p.Lays c (T.graft c q x) (Function.update off q k) := by
  have hmix : ∀ {α : Type} (f g : Trail → α), (∀ v, (∀ l, v ≠ l :: q) → g v = f v) →
      ∀ v, (T.graft c q x).Mem v → mix ((T.graft c q x).kids q) q f g v = g v := by
    intro α f g hfg v hv
    by_cases hex : ∃ l, v = l :: q
    · obtain ⟨l, rfl⟩ := hex
      exact mix_of_mem hv.2
    · rw [mix_of_not fun l _ hvl => hex ⟨l, hvl⟩, hfg v fun l hvl => hex ⟨l, hvl⟩]
  have hloc := hmix (locate off) (locate (Function.update off q k))
    fun v hv => locate_update_of_ne hv
  have hname := hmix T.name (T.graft c q x).name fun v hv => name_graft_of_ne hv hq0
  refine ⟨hT.graft hq hx (.inl hq0) hterm, h.congr (fun v => ?_)
    (fun v hv => (hloc v (mem_graft_of_joined hT hq hx hv)).symm) fun v hv => ?_, ?_, ?_⟩
  · rw [hT.mem_graft hq hx]
    unfold joined
    rw [Outline.kids_graft_self, mem_insertLabel]
    simp
  · have hmem := mem_graft_of_joined (c := c) hT hq hx hv
    rw [← Outline.slotNaming_name]
    unfold Outline.slotNaming
    rw [hname v hmem]
    rcases v with _ | ⟨l, u⟩
    · rfl
    · simp only [Outline.slot, hloc u hmem.1]
  · rw [Function.update_of_ne (Ne.symm hq0), hroot]
  · intro t ht htkids
    by_cases htq : t = q
    · rw [htq, Function.update_self]
      exact hk
    · rw [Function.update_of_ne htq]
      rw [Outline.kids_graft_of_ne x htq] at htkids
      exact hdeep t ht htkids

end Pool

end DoubleArrayTrie
