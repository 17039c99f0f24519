import DoubleArrayTrie.Proofs.Trie.Grafting

/-!
# The children of another node move away

If the owner of the slot that a node asks for has no more children than the node, the children of the
owner move. One of them leaves the slot that was asked for, and the new child takes it at once. The
node that asks may be a child of the owner itself: its slot is another one after its own move, and
the request is passed on with it.

* `Yielding.give`, `Yielding.pass`: the child in the slot that was asked for moves, another one does.
* `Yielding.moveAway`: all children come to the new offset.
* `Lays.yielding`, `Yielding.lays`: how the move starts and what it comes to.
-/

namespace DoubleArrayTrie

/-- Node `q` asks for the slot of a child `x` and child `y` of node `u` is in it. -/
structure Contest (T : Outline) (off : Trail → Nat) (q : Trail) (x : UInt8) (u : Trail)
    (y : UInt8) : Prop where
  asker : T.Mem q
  asker_ne : q ≠ []
  kids : T.kids q ≠ []
  new : x ∉ T.kids q
  owner : T.Mem u
  owner_ne : u ≠ []
  apart : q ≠ u
  held : y ∈ T.kids u
  slot : off q ^^^ x.toNat = off u ^^^ y.toNat

namespace Pool

variable {c : Config} {p : Pool} {T : Outline} {off : Trail → Nat} {q u : Trail} {x y l : UInt8}
  {k : Nat} {ds : List UInt8}

/-- The outline, when the children of node `u` with the labels `ds` have moved. -/
def granted (c : Config) (T : Outline) (q : Trail) (x y : UInt8) (ds : List UInt8) : Outline :=
  if y ∈ ds then T.graft c q x else T

/-- The pool while the children of node `u` move to offset `k`: those with the labels `ds` are
there, and the new child is in the slot that `y` left if `y` is one of them. -/
def Yielding (c : Config) (p : Pool) (T : Outline) (off : Trail → Nat) (q : Trail) (x : UInt8)
    (u : Trail) (y : UInt8) (k : Nat) (ds : List UInt8) : Prop :=
  p.Draws c (granted c T q x y ds).Mem (mix ds u (locate off) (locate (Function.update off u k)))
    ((granted c T q x y ds).slot c (Function.update off u k)
      (mix ds u (locate off) (locate (Function.update off u k))))

variable (hT : T.Sound c) (hc : Contest T off q x u y)
include hT hc

theorem sound_granted (ds : List UInt8) : (granted c T q x y ds).Sound c := by
  unfold granted
  split_ifs
  · refine hT.graft hc.asker hc.new (.inl hc.asker_ne) ?_
    rintro r rfl
    exact hc.kids (hT.terminal r)
  · exact hT

theorem mem_granted (v : Trail) :
    (granted c T q x y ds).Mem v ↔ T.Mem v ∨ v = x :: q ∧ y ∈ ds := by
  unfold granted
  split_ifs with hy
  · rw [hT.mem_graft hc.asker hc.new]
    simp [hy]
  · simp [hy]

omit hT in
theorem kids_granted (c : Config) (ds : List UInt8) : (granted c T q x y ds).kids u = T.kids u := by
  unfold granted
  split_ifs
  · exact Outline.kids_graft_of_ne x (Ne.symm hc.apart)
  · rfl

omit hT hc in
/-- All slots name the siblings that they are to have. -/
theorem Yielding.named (h : p.Yielding c T off q x u y k ds) :
    p.Draws c (granted c T q x y ds).Mem (mix ds u (locate off) (locate (Function.update off u k)))
      ((granted c T q x y ds).slotNaming c (Function.update off u k)
        (mix ds u (locate off) (locate (Function.update off u k))) (granted c T q x y ds).name) :=
  Draws.congr h (fun _ => Iff.rfl) (fun _ _ => rfl) fun _ _ => Outline.slotNaming_name ..

variable (off k ds) in
/-- The children of a child of node `u`. -/
theorem Yielding.below (hl : l ∈ T.kids u) :
    Draws.Below c (granted c T q x y ds).Mem (mix ds u (locate off) (locate (Function.update off u k)))
      ((granted c T q x y ds).slotNaming c (Function.update off u k)
        (mix ds u (locate off) (locate (Function.update off u k))) (granted c T q x y ds).name)
      l (l :: u) ((granted c T q x y ds).kids (l :: u)) := by
  have hmem : (granted c T q x y ds).Mem (l :: u) :=
    (mem_granted hT hc _).mpr (.inl ⟨hc.owner, hl⟩)
  refine Draws.below_of_sound (sound_granted hT hc ds) hmem (fun m hm => ⟨hmem, hm⟩) (fun m _ => ?_)
    fun m _ => rfl
  rw [mix_of_not (fun m' _ heq => by simp at heq), Function.update_of_ne (by simp)]
  rfl

/-- The slot of a child is not that of the root. -/
theorem Yielding.loc_ne_zero (h : p.Yielding c T off q x u y k ds) (hl : l ∈ T.kids u) :
    mix ds u (locate off) (locate (Function.update off u k)) (l :: u) ≠ 0 := by
  intro hzero
  have hdraws := h.inj (l :: u) [] ((mem_granted hT hc _).mpr (.inl ⟨hc.owner, hl⟩)) trivial
  have hnil : mix ds u (locate off) (locate (Function.update off u k)) [] = 0 := rfl
  simpa using hdraws (hzero.trans hnil.symm)

/-- A child that is not in the slot that was asked for moves, and its slot is given back. -/
theorem Yielding.pass (h : p.Yielding c T off q x u y k ds) (hl : l ∈ T.kids u) (hlds : l ∉ ds)
    (hly : l ≠ y) (hfree : p.Free (k ^^^ l.toNat)) :
    (((p.settle c (locate off u) k l (nextLabel l (T.kids u))).carry c (off u ^^^ l.toNat)
      (k ^^^ l.toNat) l).release c (off u ^^^ l.toNat)).Yielding c T off q x u y k (ds ++ [l]) := by
  have hmem : (granted c T q x y ds).Mem (l :: u) :=
    (mem_granted hT hc _).mpr (.inl ⟨hc.owner, hl⟩)
  have hgranted : granted c T q x y (ds ++ [l]) = granted c T q x y ds := by
    unfold granted
    simp only [List.mem_append, List.mem_singleton, Ne.symm hly, or_false]
  have hshift := Draws.shift_release (u := u) (sound_granted hT hc ds) (fun _ hv => hv) h.named hmem
    (h.loc_ne_zero hT hc hl) (Yielding.below off k ds hT hc hl) hfree (nextLabel l (T.kids u))
  rw [mix_self, mix_of_notMem hlds] at hshift
  unfold Yielding
  rw [hgranted, mix_concat, locate_update_cons]
  refine hshift.congr (fun _ => Iff.rfl) (fun _ _ => rfl) fun v _ => ?_
  rw [← Outline.slotNaming_name]
  have hname : Function.update (granted c T q x y ds).name (l :: u) (nextLabel l (T.kids u)) =
      (granted c T q x y ds).name := by
    rw [← kids_granted hc c ds]
    exact Function.update_eq_self ..
  rw [hname]

/-- What the slots hold when the child in the slot that was asked for has moved: that slot is drawn as
the one of the new child. -/
def yielded (c : Config) (T : Outline) (off : Trail → Nat) (q : Trail) (x : UInt8) (u : Trail)
    (y : UInt8) (k : Nat) (ds : List UInt8) : Trail → Slot :=
  Function.update
    (T.slotNaming c (Function.update off u k)
      (mix (ds ++ [y]) u (locate off) (locate (Function.update off u k))) T.name) (x :: q)
    (T.slotNaming c (Function.update off u k)
      (mix ds u (locate off) (locate (Function.update off u k))) T.name (y :: u))

/-- The child in the slot that was asked for moves. -/
theorem Yielding.shifted (h : p.Yielding c T off q x u y k ds) (hyds : y ∉ ds)
    (hfree : p.Free (k ^^^ y.toNat)) :
    ((p.settle c (locate off u) k y (nextLabel y (T.kids u))).carry c (off u ^^^ y.toNat)
      (k ^^^ y.toNat) y).Draws c (fun v => T.Mem v ∨ v = x :: q)
        (mix (ds ++ [y]) u (locate off) (locate (Function.update off u k)))
        (yielded c T off q x u y k ds) := by
  have hbefore : granted c T q x y ds = T := if_neg hyds
  have hmem : T.Mem (y :: u) := ⟨hc.owner, hc.held⟩
  have hnew : ¬ T.Mem (x :: q) := fun hm => hc.new hm.2
  have hne : ∀ v, T.Mem v → v ≠ x :: q := by
    rintro v hv rfl
    exact hnew hv
  have hnamed := h.named
  have hbelow := Yielding.below off k ds hT hc hc.held
  rw [hbefore] at hnamed hbelow
  have hshift := Draws.shift (u := u) (fun _ hv => hv) hnamed hmem hnew hbelow hfree
    (nextLabel y (T.kids u))
  have hname : Function.update T.name (y :: u) (nextLabel y (T.kids u)) = T.name :=
    Function.update_eq_self ..
  have hconcat := mix_concat (f := locate off) (g := locate (Function.update off u k)) (u := u) ds y
  rw [locate_update_cons] at hconcat
  rw [mix_self, mix_of_notMem hyds, hname, ← hconcat] at hshift
  refine hshift.congr (fun _ => Iff.rfl) (fun v hv => ?_) fun _ _ => rfl
  unfold Draws.moved
  rcases hv with hv | rfl
  · by_cases hvy : v = y :: u
    · rw [hvy, Function.update_self, mix_of_mem (by simp), locate_update_cons]
    · rw [Function.update_of_ne hvy, Function.update_of_ne (hne v hv), hconcat,
        Function.update_of_ne hvy]
  · rw [Function.update_of_ne (Ne.symm (hne _ hmem)), Function.update_self, mix_of_notMem hyds,
      mix_of_not fun l _ heq => hc.apart (List.cons.inj heq).2, locate_cons, hc.slot, locate_cons]

omit hT in
/-- The children of the node that asks are where they were. -/
theorem Yielding.loc_child (ds : List UInt8) (l : UInt8) :
    mix ds u (locate off) (locate (Function.update off u k)) (l :: q) = off q ^^^ l.toNat :=
  mix_of_not fun _ _ heq => hc.apart (List.cons.inj heq).2

/-- They form a chain, to which the new child does not belong yet. -/
theorem Yielding.chain (ds : List UInt8) :
    Draws.Chain (fun v => T.Mem v ∨ v = x :: q)
      (mix (ds ++ [y]) u (locate off) (locate (Function.update off u k)))
      (yielded c T off q x u y k ds) q (off q) (T.chain q) := by
  have hne : ∀ v, T.Mem v → v ≠ x :: q := by
    rintro v hv rfl
    exact hc.new hv.2
  have hchain : T.chain q = T.kids q := if_neg hc.asker_ne
  have hdata : ∀ v, T.Mem v → yielded c T off q x u y k ds v = _ := fun v hv =>
    Function.update_of_ne (hne v hv) ..
  refine ⟨hT.isLabels_chain q, .inl hc.asker, fun l hl => .inl (Outline.mem_sib hl hc.asker),
    fun l hl => ?_, ?_, fun l hl => ?_⟩
  · rw [hT.sib_eq_cons (hchain ▸ hl), Yielding.loc_child hc]
  · rw [hdata q hc.asker, Outline.slotNaming_name, Outline.slot_child]
  · rw [hdata _ (Outline.mem_sib hl hc.asker), Outline.slotNaming_name, Outline.slot_sibling]

/-- **The child in the slot that was asked for moves**, and the slot becomes that of the new child,
whose parent is where it is by then. -/
theorem Yielding.give (h : p.Yielding c T off q x u y k ds) (hyds : y ∉ ds)
    (hfree : p.Free (k ^^^ y.toNat)) {n : Nat}
    (hn : n = mix (ds ++ [y]) u (locate off) (locate (Function.update off u k)) q) :
    (((((p.settle c (locate off u) k y (nextLabel y (T.kids u))).carry c (off u ^^^ y.toNat)
      (k ^^^ y.toNat) y).linkChild c.ordered n (off q) x true).setChild (off u ^^^ y.toNat) 0).setNode
        (off u ^^^ y.toNat) (c.encoding.fresh x) n).Yielding c T off q x u y k (ds ++ [y]) := by
  have hafter : granted c T q x y (ds ++ [y]) = T.graft c q x := if_pos (by simp)
  have hnew : ¬ T.Mem (x :: q) := fun hm => hc.new hm.2
  have hne : ∀ v, T.Mem v → v ≠ x :: q := by
    rintro v hv rfl
    exact hnew hv
  have hmoved := h.shifted hT hc hyds hfree
  have hchain := Yielding.chain (c := c) (k := k) hT hc ds
  have hLx := Yielding.loc_child (k := k) hc (ds ++ [y]) x
  have hdata : ∀ v, T.Mem v → yielded c T off q x u y k ds v = _ := fun v hv =>
    Function.update_of_ne (hne v hv) ..
  generalize hL : mix (ds ++ [y]) u (locate off) (locate (Function.update off u k)) = L at *
  have hself : T.slot c (Function.update off u k) L q =
      { T.slot c (Function.update off u k) L q with
        base := c.encoding.ofOffset (Function.update off u k q) } := by
    obtain ⟨a, r, rfl⟩ := List.exists_cons_of_ne_nil hc.asker_ne
    simp only [Outline.slot, hc.kids, if_false]
  obtain ⟨data, hlinked, hold, hxdata⟩ := hmoved.graft (Function.update off u k) hT hc.asker hc.new
    (.inl hc.asker_ne) hchain.locs hLx
    (by rw [hdata q hc.asker, Outline.slotNaming_name, ← hself])
    fun v hv _ => by rw [hdata v hv, Outline.slotNaming_name]
  have hhas : (!(T.chain q).isEmpty) = true := by
    unfold Outline.chain
    rw [if_neg hc.asker_ne]
    simpa using hc.kids
  rw [hhas, ← hn] at hlinked
  rw [hc.slot] at hLx
  have hset := (hlinked.setChild (.inr rfl) 0).modify (.inr rfl)
    (fun s => { s with base := c.encoding.fresh x, check := n }) (.inr (Int.natCast_nonneg n))
  rw [hLx] at hset
  unfold Yielding
  rw [hL, hafter]
  refine hset.congr (fun v => hT.mem_graft hc.asker hc.new v) (fun _ _ => rfl) fun v hv => ?_
  rcases hv with hv | rfl
  · rw [Function.update_of_ne (hne v hv), Function.update_of_ne (hne v hv), hold v hv]
  · simp only [Function.update_self, hxdata]
    rw [Outline.slot_graft_new (hT.outside _ hnew), ← hn]

/-- If the child that moves is the node that asks, the request goes on from its new slot. -/
theorem Yielding.request_eq (h : p.Yielding c T off q x u y k ds) (hl : l ∈ T.kids u)
    (hlds : l ∉ ds) :
    (if off u ^^^ l.toNat = mix ds u (locate off) (locate (Function.update off u k)) q
      then (⟨k ^^^ l.toNat, off q, x⟩ : Request)
      else ⟨mix ds u (locate off) (locate (Function.update off u k)) q, off q, x⟩) =
      ⟨mix (ds ++ [l]) u (locate off) (locate (Function.update off u k)) q, off q, x⟩ := by
  have hloc : mix ds u (locate off) (locate (Function.update off u k)) (l :: u) =
      off u ^^^ l.toNat := mix_of_notMem hlds
  have hasker : off u ^^^ l.toNat =
      mix ds u (locate off) (locate (Function.update off u k)) q ↔ q = l :: u := by
    constructor
    · intro heq
      refine h.inj q (l :: u) ((mem_granted hT hc q).mpr (.inl hc.asker))
        ((mem_granted hT hc _).mpr (.inl ⟨hc.owner, hl⟩)) ?_
      rw [hloc, heq]
    · rintro rfl
      exact hloc.symm
  rw [mix_concat, locate_update_cons, Function.update_apply]
  simp only [hasker]
  split_ifs <;> rfl

omit hT in
/-- The slot that was asked for is that of the child `y`. -/
theorem Yielding.slot_eq_iff : off u ^^^ l.toNat = off q ^^^ x.toNat ↔ l = y := by
  rw [hc.slot]
  exact xor_label_inj

/-- One child moves, and the request is for a child of the node where it is then. -/
theorem Yielding.yieldSlot (h : p.Yielding c T off q x u y k ds) (hl : l ∈ T.kids u) (hlds : l ∉ ds)
    (hfree : p.Free (k ^^^ l.toNat)) : ∃ p' : Pool, p'.Yielding c T off q x u y k (ds ++ [l]) ∧
      p.yieldSlot c (locate off u) (off u) k
        ⟨mix ds u (locate off) (locate (Function.update off u k)) q, off q, x⟩ l
        (nextLabel l (T.kids u)) =
      (p', ⟨mix (ds ++ [l]) u (locate off) (locate (Function.update off u k)) q, off q, x⟩) := by
  unfold Pool.yieldSlot Request.slot
  dsimp only
  rw [h.request_eq hT hc hl hlds]
  dsimp only
  by_cases hly : l = y
  · rw [if_pos ((Yielding.slot_eq_iff hc).mpr hly)]
    subst hly
    exact ⟨_, h.give hT hc hlds hfree rfl, rfl⟩
  · rw [if_neg fun heq => hly ((Yielding.slot_eq_iff hc).mp heq)]
    exact ⟨_, h.pass hT hc hl hlds hly hfree, rfl⟩

/-- The slots that children have not come to yet are free. -/
theorem Yielding.free (h : p.Yielding c T off q x u y k ds) (hsize : k < p.size) (hlds : l ∉ ds)
    (hfresh : ∀ t, T.Mem t → locate off t ≠ k ^^^ l.toNat) : p.Free (k ^^^ l.toNat) := by
  refine Draws.free_of_ne h (h.kept.xor_lt l hsize) fun t ht => ?_
  by_cases hex : ∃ m ∈ ds, t = m :: u
  · obtain ⟨m, hm, rfl⟩ := hex
    rw [mix_of_mem hm, locate_update_cons]
    intro heq
    obtain rfl := xor_label_inj.mp heq
    exact hlds hm
  · rw [mix_of_not fun m hm htm => hex ⟨m, hm, htm⟩]
    rcases (mem_granted hT hc t).mp ht with ht | ⟨rfl, -⟩
    · exact hfresh t ht
    · -- the new child is where the child that it waited for was
      rw [locate_cons, hc.slot, ← locate_cons]
      exact hfresh (y :: u) ⟨hc.owner, hc.held⟩

/-- **All children come to the new offset**, one after the other. -/
theorem Yielding.moveAway {rest : List UInt8} (h : p.Yielding c T off q x u y k ds)
    (hsplit : T.kids u = ds ++ rest) (hsize : k < p.size)
    (hfresh : ∀ l ∈ rest, ∀ t, T.Mem t → locate off t ≠ k ^^^ l.toNat) :
    (p.moveAway c (locate off u) (off u) k rest
      ⟨mix ds u (locate off) (locate (Function.update off u k)) q, off q, x⟩).Yielding c T off q x u y
        k (T.kids u) := by
  induction rest generalizing p ds with
  | nil =>
    rw [hsplit, List.append_nil]
    exact h
  | cons l rest ih =>
    have hl : l ∈ T.kids u := by
      rw [hsplit]
      simp
    obtain ⟨hlds, hnext⟩ := (hT.labels u).of_split hsplit
    have hfree := h.free hT hc hsize hlds (hfresh l List.mem_cons_self)
    obtain ⟨p', hp', heq⟩ := h.yieldSlot hT hc hl hlds hfree
    have hmem : (granted c T q x y (ds ++ [l])).Mem (l :: u) :=
      (mem_granted hT hc _).mpr (.inl ⟨hc.owner, hl⟩)
    have hlt := Draws.lt_size hp' hmem
    rw [mix_of_mem (by simp), locate_update_cons] at hlt
    have hlt' := hp'.kept.xor_lt l hlt
    rw [xor_label_cancel] at hlt'
    have hrest := ih hp' (by rw [hsplit, List.append_assoc]; rfl) hlt' fun m hm =>
      hfresh m (List.mem_cons_of_mem _ hm)
    unfold Pool.moveAway at hrest ⊢
    rw [withNext_cons, List.foldl_cons, hnext]
    dsimp only
    rw [heq]
    exact hrest

omit hT in
/-- Before the children move, their parent is given their new offset. -/
theorem Lays.yielding (h : p.Lays c T off) :
    (p.setBase (locate off u) (c.encoding.ofOffset k)).Yielding c T off q x u y k [] := by
  have hmix : mix [] u (locate off) (locate (Function.update off u k)) = locate off :=
    funext fun _ => mix_nil
  unfold Yielding granted
  rw [hmix, if_neg (by simp)]
  refine (h.draws.setBase hc.owner (c.encoding.ofOffset k)).congr (fun _ => Iff.rfl)
    (fun _ _ => rfl) fun v _ => ?_
  have hkids : T.kids u ≠ [] := List.ne_nil_of_mem hc.held
  by_cases hvu : v = u
  · subst hvu
    rw [Function.update_self]
    obtain ⟨a, r, rfl⟩ := List.exists_cons_of_ne_nil hc.owner_ne
    simp only [Outline.slot, hkids, if_false, Function.update_self]
  · rw [Function.update_of_ne hvu]
    rcases v with _ | ⟨a, r⟩ <;> simp only [Outline.slot, Function.update_of_ne hvu]

/-- When all children have come to the new offset the new child is in the slot that was asked for. -/
theorem Yielding.lays (h : p.Yielding c T off q x u y k (T.kids u)) (hroot : off [] = 0)
    (hdeep : ∀ t, t ≠ [] → T.kids t ≠ [] → blockSize ≤ off t) (hk : blockSize ≤ k) :
    p.Lays c (T.graft c q x) (Function.update off u k) := by
  have hgranted : granted c T q x y (T.kids u) = T.graft c q x := if_pos hc.held
  have hsound := sound_granted hT hc (T.kids u)
  have hmem := @mem_granted c T off q u x y (T.kids u) hT hc
  have hkids := kids_granted hc c (T.kids u)
  have hdraws : p.Draws c _ _ _ := h
  rw [hgranted] at hsound hmem hkids hdraws
  have hloc : ∀ v, (T.graft c q x).Mem v →
      mix (T.kids u) u (locate off) (locate (Function.update off u k)) v =
        locate (Function.update off u k) v := by
    intro v hv
    by_cases hex : ∃ l, v = l :: u
    · obtain ⟨l, rfl⟩ := hex
      exact mix_of_mem (hkids ▸ hv.2)
    · have hne : ∀ l, v ≠ l :: u := fun l hl => hex ⟨l, hl⟩
      rw [mix_of_not fun l _ => hne l, locate_update_of_ne hne]
  refine ⟨hsound, hdraws.congr (fun _ => Iff.rfl) (fun v hv => (hloc v hv).symm) fun v hv => ?_, ?_,
    fun t ht htkids => ?_⟩
  · rcases v with _ | ⟨l, r⟩
    · rfl
    · simp only [Outline.slot, hloc r hv.1]
  · rw [Function.update_of_ne (Ne.symm hc.owner_ne), hroot]
  · by_cases htu : t = u
    · rw [htu, Function.update_self]
      exact hk
    · rw [Function.update_of_ne htu]
      refine hdeep t ht ?_
      by_cases htq : t = q
      · rw [htq]
        exact hc.kids
      · rwa [Outline.kids_graft_of_ne x htq] at htkids

end Pool

end DoubleArrayTrie
