import DoubleArrayTrie.Proofs.Trie.Moving

/-!
# One child after the other

While the children of a node move some are at the new offset already and some are still at the old
one. The drawing in between is that of an outline with other slots for the children that have moved
(`mix`), which may still name the siblings that they had before.

* `Draws.shift`: one child moves, in an outline.
* `Draws.shift_release`: its slot is given back then.
-/

namespace DoubleArrayTrie

namespace Outline

variable {c : Config} {T : Outline} {off loc loc' : Trail → Nat} {σ : Trail → UInt8} {t u : Trail}
  {l : UInt8} {e : Nat}

/-- The label that the slot of a node names as the next sibling. -/
def name (T : Outline) : Trail → UInt8
  | [] => (T.kids []).headD 0
  | l :: q => nextLabel l (T.kids q)

/-- What the slot of a node holds if it names other siblings. -/
def slotNaming (c : Config) (T : Outline) (off loc : Trail → Nat) (σ : Trail → UInt8) (t : Trail) :
    Slot :=
  { T.slot c off loc t with sibling := σ t }

theorem slotNaming_name (c : Config) (T : Outline) (off loc : Trail → Nat) (t : Trail) :
    T.slotNaming c off loc T.name t = T.slot c off loc t := by
  cases t <;> rfl

/-- A child that moves is named as parent by its children, and by no other slot. -/
theorem slot_update_loc (t : Trail) : T.slot c off (Function.update loc u e) t =
    if t.tail = u ∧ t ≠ [] then { T.slot c off loc t with check := e } else T.slot c off loc t := by
  rcases t with _ | ⟨l, q⟩
  · exact (if_neg (by simp)).symm
  · simp only [slot, List.tail_cons, ne_eq, reduceCtorEq, not_false_eq_true, and_true]
    rw [Function.update_apply]
    split_ifs <;> rfl

end Outline

namespace Pool

variable {c : Config} {p : Pool} {T : Outline} {off loc : Trail → Nat} {σ : Trail → UInt8}
  {M : Trail → Prop} {u w : Trail} {l : UInt8} {k : Nat}

namespace Draws

/-- The children of a node of an outline, as the slots tell of them. -/
theorem below_of_sound (hT : T.Sound c) (ht : T.Mem (l :: u))
    (hmems : ∀ m ∈ T.kids (l :: u), M (m :: l :: u))
    (hlocs : ∀ m ∈ T.kids (l :: u), loc (m :: l :: u) = off (l :: u) ^^^ m.toNat)
    (hσ : ∀ m ∈ T.kids (l :: u), σ (m :: l :: u) = nextLabel m (T.kids (l :: u))) :
    Below c M loc (T.slotNaming c off loc σ) l (l :: u) (T.kids (l :: u)) where
  labels := hT.labels _
  mems := hmems
  child := rfl
  sibling := hσ
  leaf hk := by
    by_cases hl : l = 0
    · exact .inl hl
    · refine .inr (.inr ?_)
      have hword := hT.leaf l u hl ht hk
      simpa only [Outline.slotNaming, Outline.slot, hk, if_true] using hword
  inner hk := by
    refine ⟨?_, off (l :: u), if_neg hk, hlocs⟩
    rintro rfl
    exact hk (hT.terminal u)

/-- **A child moves, in an outline**: it has another slot then, which its children name, and the
label after it is another one. -/
theorem shift (hM : ∀ v, M v → T.Mem v) (h : p.Draws c M loc (T.slotNaming c off loc σ))
    (ht : M (l :: u)) (hw : ¬ M w)
    (hbelow : Below c M loc (T.slotNaming c off loc σ) l (l :: u) (T.kids (l :: u)))
    (hfree : p.Free (k ^^^ l.toNat)) (next : UInt8) :
    ((p.settle c (loc u) k l next).carry c (loc (l :: u)) (k ^^^ l.toNat) l).Draws c
      (fun v => M v ∨ v = w) (moved loc (l :: u) w (k ^^^ l.toNat))
      (Function.update (T.slotNaming c off (Function.update loc (l :: u) (k ^^^ l.toNat))
        (Function.update σ (l :: u) next)) w (T.slotNaming c off loc σ (l :: u))) := by
  have hwt : l :: u ≠ w := by rintro rfl; exact hw ht
  refine (h.moveChild ht hw hbelow hfree (loc u) next).congr (fun _ => Iff.rfl) (fun _ _ => rfl)
    fun v hv => ?_
  unfold movedData
  by_cases hvw : v = w
  · rw [hvw, Function.update_self, if_neg (Ne.symm hwt), if_pos rfl]
  rw [Function.update_of_ne hvw]
  have hMv := hv.resolve_right hvw
  by_cases hvt : v = l :: u
  · subst hvt
    rw [if_pos rfl]
    unfold Outline.slotNaming
    rw [Function.update_self, Outline.slot_update_loc, if_neg (by simp)]
    rfl
  rw [if_neg hvt, if_neg hvw]
  unfold Outline.slotNaming
  rw [Function.update_of_ne hvt, Outline.slot_update_loc]
  have hchild : (v.tail = l :: u ∧ v ≠ []) ↔ ∃ m ∈ T.kids (l :: u), v = m :: l :: u := by
    constructor
    · rintro ⟨htail, hne⟩
      obtain ⟨m, v, rfl⟩ := List.exists_cons_of_ne_nil hne
      obtain rfl : v = l :: u := htail
      exact ⟨m, (hM _ hMv).2, rfl⟩
    · rintro ⟨m, -, rfl⟩
      exact ⟨rfl, by simp⟩
  by_cases hex : ∃ m ∈ T.kids (l :: u), v = m :: l :: u
  · rw [if_pos (hchild.mpr hex), if_pos hex]
  · rw [if_neg fun hc => hex (hchild.mp hc), if_neg hex]

/-- A child moves and its slot is given back. -/
theorem shift_release (hT : T.Sound c) (hM : ∀ v, M v → T.Mem v)
    (h : p.Draws c M loc (T.slotNaming c off loc σ)) (ht : M (l :: u)) (h0 : loc (l :: u) ≠ 0)
    (hbelow : Below c M loc (T.slotNaming c off loc σ) l (l :: u) (T.kids (l :: u)))
    (hfree : p.Free (k ^^^ l.toNat)) (next : UInt8) :
    (((p.settle c (loc u) k l next).carry c (loc (l :: u)) (k ^^^ l.toNat) l).release c
      (loc (l :: u))).Draws c M (Function.update loc (l :: u) (k ^^^ l.toNat))
      (T.slotNaming c off (Function.update loc (l :: u) (k ^^^ l.toNat))
        (Function.update σ (l :: u) next)) := by
  have hw : ¬ M Outline.spare := fun hs => hT.not_mem_spare (hM _ hs)
  have hne : ∀ v, M v → v ≠ Outline.spare := by rintro v hv rfl; exact hw hv
  have hshift := shift hM h ht hw hbelow hfree next
  have hloc : moved loc (l :: u) Outline.spare (k ^^^ l.toNat) Outline.spare = loc (l :: u) := by
    unfold moved
    rw [Function.update_of_ne (Ne.symm (hne _ ht)), Function.update_self]
  have hrelease := hshift.release (.inr rfl) (by rwa [hloc])
  rw [hloc] at hrelease
  refine hrelease.congr (fun v => ?_) (fun v hv => ?_) fun v hv => ?_
  · constructor
    · exact fun hv => ⟨.inl hv, hne v hv⟩
    · exact fun hv => hv.1.resolve_right hv.2
  · unfold moved
    by_cases hvt : v = l :: u
    · rw [hvt, Function.update_self, Function.update_self]
    · rw [Function.update_of_ne hvt, Function.update_of_ne hvt, Function.update_of_ne hv.2]
  · rw [Function.update_of_ne hv.2]

/-- A slot where no node is drawn is free. -/
theorem free_of_ne {data : Trail → Slot} {e : Nat} (h : p.Draws c M loc data) (he : e < p.size)
    (hne : ∀ t, M t → loc t ≠ e) : p.Free e := by
  refine free_iff_live.mpr ⟨he, ?_⟩
  cases hlive : p.live e with
  | none => rfl
  | some s =>
    obtain ⟨t, ht, hte⟩ := h.onto e s hlive
    exact absurd hte (hne t ht)

end Draws

/-! ### Some children have moved -/

/-- The second function for the children of node `u` with these labels, the first one for others. -/
def mix {α : Type} (ds : List UInt8) (u : Trail) (f g : Trail → α) : Trail → α
  | [] => f []
  | l :: v => if v = u ∧ l ∈ ds then g (l :: v) else f (l :: v)

section

variable {α : Type} {f g : Trail → α} {ds rest labels : List UInt8} {v : Trail}

theorem mix_nil : mix [] u f g v = f v := by
  rcases v with _ | ⟨l, v⟩
  · rfl
  · exact if_neg (by simp)

theorem mix_of_not (h : ∀ l ∈ ds, v ≠ l :: u) : mix ds u f g v = f v := by
  rcases v with _ | ⟨l, v⟩
  · rfl
  · refine if_neg ?_
    rintro ⟨rfl, hl⟩
    exact h l hl rfl

theorem mix_of_mem (hl : l ∈ ds) : mix ds u f g (l :: u) = g (l :: u) := if_pos ⟨rfl, hl⟩

theorem mix_of_notMem (hl : l ∉ ds) : mix ds u f g (l :: u) = f (l :: u) :=
  mix_of_not fun _ hm heq => hl ((List.cons.inj heq).1 ▸ hm)

theorem mix_self : mix ds u f g u = f u := mix_of_not fun l _ h => by simp at h

theorem mix_concat (ds : List UInt8) (l : UInt8) :
    mix (ds ++ [l]) u f g = Function.update (mix ds u f g) (l :: u) (g (l :: u)) := by
  funext v
  by_cases hv : v = l :: u
  · rw [hv, Function.update_self, mix_of_mem (by simp)]
  · rw [Function.update_of_ne hv]
    rcases v with _ | ⟨m, v⟩
    · rfl
    · have hm : (v = u ∧ m ∈ ds ++ [l]) ↔ (v = u ∧ m ∈ ds) := by
        refine and_congr_right fun hvu => ?_
        rw [List.mem_append, List.mem_singleton]
        refine or_iff_left ?_
        rintro rfl
        exact hv (by rw [hvu])
      unfold mix
      simp only [hm]

theorem withNext_cons (l : UInt8) (rest : List UInt8) :
    withNext (l :: rest) = (l, rest.headD 0) :: withNext rest := by
  unfold withNext
  rcases rest with _ | ⟨m, rest⟩ <;> rfl

theorem locate_update_of_ne {q : Trail} (h : ∀ l, v ≠ l :: q) :
    locate (Function.update off q k) v = locate off v := by
  rcases v with _ | ⟨l, v⟩
  · rfl
  · rw [locate_cons, locate_cons, Function.update_of_ne]
    rintro rfl
    exact h l rfl

theorem locate_update_cons (q : Trail) (l : UInt8) :
    locate (Function.update off q k) (l :: q) = k ^^^ l.toNat := by
  rw [locate_cons, Function.update_self]

end

end Pool

end DoubleArrayTrie
