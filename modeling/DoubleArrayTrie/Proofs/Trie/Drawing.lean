import Mathlib.Logic.Equiv.Basic
import DoubleArrayTrie.Proofs.Pool.Taking
import DoubleArrayTrie.Proofs.Pool.Releasing

/-!
# Pools as drawings of nodes

A node of a trie is known by its *trail*, the labels on the way up from it to the root. A pool draws
nodes if its live slots are theirs, one slot for each node, with given records. Where the records
come from is left open, so that a pool can be described also in the middle of an operation.

* `Draws.modify`, `Draws.occupy`, `Draws.release`: what one step of an operation does to a drawing.
* `Draws.swap`: two nodes of a drawing may trade their slots, if they trade their records too.
-/

namespace DoubleArrayTrie

/-- The labels on the way up from a node to the root. -/
abbrev Trail := List UInt8

namespace Pool

/-- The live slots of a pool are those of the nodes `M`, which are at slots `loc` and have records
`data`. -/
structure Draws (c : Config) (p : Pool) (M : Trail → Prop) (loc : Trail → Nat)
    (data : Trail → Slot) : Prop where
  kept : p.WellKept c
  live : ∀ t, M t → p.live (loc t) = some (data t)
  inj : ∀ t u, M t → M u → loc t = loc u → t = u
  onto : ∀ e s, p.live e = some s → ∃ t, M t ∧ loc t = e

variable {c : Config} {p q : Pool} {M M' : Trail → Prop} {loc loc' : Trail → Nat}
  {data data' : Trail → Slot} {t u : Trail} {e : Nat}

namespace Draws

/-! ### What a drawing says -/

theorem slot_eq (h : p.Draws c M loc data) (ht : M t) : p.slot (loc t) = data t :=
  slot_eq_of_live (h.live t ht)

theorem lt_size (h : p.Draws c M loc data) (ht : M t) : loc t < p.size :=
  lt_size_of_live (h.live t ht)

theorem check_nonneg (h : p.Draws c M loc data) (ht : M t) : loc t = 0 ∨ 0 ≤ (data t).check := by
  obtain ⟨-, hcheck, hslot⟩ := live_eq_some_iff.mp (h.live t ht)
  rwa [hslot] at hcheck

/-- A slot that names a parent belongs to a node. -/
theorem exists_of_check (h : p.Draws c M loc data) (he : e < p.size) (hcheck : 0 ≤ (p.slot e).check) :
    ∃ t, M t ∧ loc t = e ∧ p.slot e = data t := by
  obtain ⟨t, ht, rfl⟩ := h.onto e _ (live_eq_some_iff.mpr ⟨he, .inr hcheck, rfl⟩)
  exact ⟨t, ht, rfl, h.slot_eq ht⟩

/-- A slot that is free is the slot of no node. -/
theorem ne_of_free (h : p.Draws c M loc data) (he : p.Free e) (ht : M t) : loc t ≠ e := by
  rintro rfl
  exact not_free_of_live (h.live t ht) he

/-- A drawing depends only on the nodes it draws. -/
theorem congr (h : p.Draws c M loc data) (hM : ∀ t, M' t ↔ M t) (hloc : ∀ t, M t → loc' t = loc t)
    (hdata : ∀ t, M t → data' t = data t) : p.Draws c M' loc' data' where
  kept := h.kept
  live t ht := by
    have hMt := (hM t).mp ht
    rw [hloc t hMt, hdata t hMt, h.live t hMt]
  inj t u ht hu htu := by
    have hMt := (hM t).mp ht
    have hMu := (hM u).mp hu
    rw [hloc t hMt, hloc u hMu] at htu
    exact h.inj t u hMt hMu htu
  onto e s he := by
    obtain ⟨t, ht, rfl⟩ := h.onto e s he
    exact ⟨t, (hM t).mpr ht, hloc t ht⟩

/-- A drawing does not depend on what is not live. -/
theorem of_live (h : p.Draws c M loc data) (hq : q.WellKept c) (hlive : q.live = p.live) :
    q.Draws c M loc data :=
  ⟨hq, fun t ht => by rw [hlive, h.live t ht], h.inj, fun e s he => h.onto e s (by rwa [← hlive])⟩

/-! ### Steps -/

/-- A node gets another record. -/
theorem modify (h : p.Draws c M loc data) (ht : M t) (f : Slot → Slot)
    (hf : (f (data t)).check = (data t).check ∨ 0 ≤ (f (data t)).check) :
    (p.modifySlot (loc t) f).Draws c M loc (Function.update data t (f (data t))) := by
  have hcheck : loc t = 0 ∨ 0 ≤ (f (data t)).check := by
    rcases hf with heq | hpos
    · rw [heq]
      exact h.check_nonneg ht
    · exact .inr hpos
  have hlive := live_modifySlot h.kept.size_le (h.live t ht) f hcheck
  refine ⟨h.kept.write (h.live t ht) f hcheck, fun u hu => ?_, h.inj, fun e s he => ?_⟩
  · rw [hlive]
    by_cases hut : u = t
    · rw [hut, Function.update_self, Function.update_self]
    · rw [Function.update_of_ne hut, Function.update_of_ne, h.live u hu]
      exact fun hloc => hut (h.inj u t hu ht hloc)
  · by_cases het : e = loc t
    · exact ⟨t, ht, het.symm⟩
    · rw [hlive, Function.update_of_ne het] at he
      exact h.onto e s he

theorem setBase (h : p.Draws c M loc data) (ht : M t) (raw : Int) :
    (p.setBase (loc t) raw).Draws c M loc
      (Function.update data t { data t with base := raw }) :=
  h.modify ht (fun s => { s with base := raw }) (.inl rfl)

theorem setSibling (h : p.Draws c M loc data) (ht : M t) (l : UInt8) :
    (p.setSibling (loc t) l).Draws c M loc
      (Function.update data t { data t with sibling := l }) :=
  h.modify ht (fun s => { s with sibling := l }) (.inl rfl)

theorem setChild (h : p.Draws c M loc data) (ht : M t) (l : UInt8) :
    (p.setChild (loc t) l).Draws c M loc (Function.update data t { data t with child := l }) :=
  h.modify ht (fun s => { s with child := l }) (.inl rfl)

theorem setCheck (h : p.Draws c M loc data) (ht : M t) (n : Nat) :
    (p.setCheck (loc t) n).Draws c M loc (Function.update data t { data t with check := n }) :=
  h.modify ht (fun s => { s with check := n }) (.inr (Int.natCast_nonneg n))

/-- A free slot is taken for a new node. -/
theorem occupy (h : p.Draws c M loc data) (he : p.Free e) (ht : ¬ M t) (l : UInt8) (n : Nat) :
    (p.occupy c e l n).Draws c (fun u => M u ∨ u = t) (Function.update loc t e)
      (Function.update data t ⟨c.encoding.fresh l, n, 0, 0⟩) := by
  have hlive := h.kept.live_occupy he l n
  have hne : ∀ u, M u → u ≠ t := fun u hu hut => ht (hut ▸ hu)
  refine ⟨h.kept.occupy he l n, fun u hu => ?_, fun u v hu hv huv => ?_, fun i s hi => ?_⟩
  · rw [hlive]
    rcases hu with hu | rfl
    · rw [Function.update_of_ne (hne u hu), Function.update_of_ne (hne u hu),
        Function.update_of_ne (h.ne_of_free he hu), h.live u hu]
    · simp only [Function.update_self]
  · rcases hu with hu | rfl <;> rcases hv with hv | rfl
    · rw [Function.update_of_ne (hne u hu), Function.update_of_ne (hne v hv)] at huv
      exact h.inj u v hu hv huv
    · rw [Function.update_of_ne (hne u hu), Function.update_self] at huv
      exact absurd huv (h.ne_of_free he hu)
    · rw [Function.update_of_ne (hne v hv), Function.update_self] at huv
      exact absurd huv.symm (h.ne_of_free he hv)
    · rfl
  · by_cases hie : i = e
    · exact ⟨t, .inr rfl, by rw [Function.update_self, hie]⟩
    · rw [hlive, Function.update_of_ne hie] at hi
      obtain ⟨u, hu, rfl⟩ := h.onto i s hi
      exact ⟨u, .inl hu, Function.update_of_ne (hne u hu) ..⟩

/-- The slot of a node is given back. -/
theorem release (h : p.Draws c M loc data) (ht : M t) (h0 : loc t ≠ 0) :
    (p.release c (loc t)).Draws c (fun u => M u ∧ u ≠ t) loc data := by
  have hlive := h.kept.live_release (h.live t ht) h0
  refine ⟨h.kept.release (h.live t ht) h0, fun u hu => ?_,
    fun u v hu hv huv => h.inj u v hu.1 hv.1 huv, fun e s he => ?_⟩
  · rw [hlive, Function.update_of_ne, h.live u hu.1]
    exact fun hloc => hu.2 (h.inj u t hu.1 ht hloc)
  · have het : e ≠ loc t := by
      rintro rfl
      rw [hlive, Function.update_self] at he
      simp at he
    rw [hlive, Function.update_of_ne het] at he
    obtain ⟨u, hu, rfl⟩ := h.onto e s he
    exact ⟨u, ⟨hu, fun hut => het (by rw [hut])⟩, rfl⟩

/-- Two nodes trade their slots. -/
theorem swap (h : p.Draws c M loc data) (ht : M t) (hu : M u) :
    p.Draws c M (loc ∘ Equiv.swap t u) (data ∘ Equiv.swap t u) := by
  have hM : ∀ v, M v → M (Equiv.swap t u v) := by
    intro v hv
    rw [Equiv.swap_apply_def]
    split_ifs
    · exact hu
    · exact ht
    · exact hv
  refine ⟨h.kept, fun v hv => h.live _ (hM v hv), fun v w hv hw hvw =>
    (Equiv.swap t u).injective (h.inj _ _ (hM v hv) (hM w hw) hvw), fun e s he => ?_⟩
  obtain ⟨v, hv, rfl⟩ := h.onto e s he
  exact ⟨Equiv.swap t u v, hM v hv, by rw [Function.comp_apply, Equiv.swap_apply_self]⟩

end Draws

end Pool

end DoubleArrayTrie
