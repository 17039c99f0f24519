import DoubleArrayTrie.Trie.Relocate
import DoubleArrayTrie.Proofs.Pool.Placing
import DoubleArrayTrie.Proofs.Trie.Linking

/-!
# A child moves

When a node gets another offset each of its children moves to another slot: the word goes along, and
the children of the child are told of its new slot. The slot that it leaves is for a while drawn as
that of a node that is none, and is then given back, or is the slot of a new node.

* `WellKept.place`: a free slot for each of the children that are to move.
* `Draws.moveChild`: what moving one child does to a drawing.
-/

namespace DoubleArrayTrie

namespace Pool

variable {c : Config} {p : Pool} {M : Trail → Prop} {loc : Trail → Nat} {data : Trail → Slot}
  {t q w : Trail} {ls : List UInt8} {l : UInt8} {k n : Nat}

/-- **There is room for the children of a node**, whatever their number. -/
theorem WellKept.place (h : p.WellKept c) (hls : IsLabels ls) (hne : ls ≠ []) :
    (p.place c ls).1.WellKept c ∧ (p.place c ls).1.live = p.live ∧
      (p.place c ls).1.Roomy ls (p.place c ls).2 := by
  unfold Pool.place
  split
  · exact absurd rfl hne
  · rename_i l
    obtain ⟨hkept, hlive, hfree, hle⟩ := h.placeOne
    refine ⟨hkept, hlive, hle, hfree, fun x hx => ?_⟩
    obtain rfl := List.mem_singleton.mp hx
    rwa [List.headD_cons, xor_label_cancel]
  · rename_i hmany
    refine h.placeFor ?_ hls.length_le
    rcases ls with _ | ⟨a, _ | ⟨b, ls⟩⟩
    · exact absurd rfl hne
    · exact absurd rfl (hmany a)
    · simp

namespace Draws

/-- The node `t` with label `l` has the children `ls`, and its record and theirs say so. -/
structure Below (c : Config) (M : Trail → Prop) (loc : Trail → Nat) (data : Trail → Slot)
    (l : UInt8) (t : Trail) (ls : List UInt8) : Prop where
  labels : IsLabels ls
  mems : ∀ m ∈ ls, M (m :: t)
  child : (data t).child = ls.headD 0
  sibling : ∀ m ∈ ls, (data (m :: t)).sibling = nextLabel m ls
  leaf : ls = [] → l = 0 ∨ c.encoding.holdsValue (data t).base = true ∨
    c.encoding.offset? (data t).base = none
  inner : ls ≠ [] → l ≠ 0 ∧ ∃ k : Nat, (data t).base = c.encoding.ofOffset k ∧
    ∀ m ∈ ls, loc (m :: t) = k ^^^ m.toNat

/-- The children are told of another slot of their parent. -/
theorem foldl_setCheck (h : p.Draws c M loc data) (hmems : ∀ m ∈ ls, M (m :: t))
    (hlocs : ∀ m ∈ ls, loc (m :: t) = k ^^^ m.toNat) (e : Nat) :
    (ls.foldl (fun p m => p.setCheck (k ^^^ m.toNat) e) p).Draws c M loc fun v =>
      if ∃ m ∈ ls, v = m :: t then { data v with check := e } else data v := by
  induction ls generalizing p data with
  | nil => simpa using h
  | cons a ls ih =>
    have hstep := h.setCheck (hmems a List.mem_cons_self) e
    rw [hlocs a List.mem_cons_self] at hstep
    refine (ih hstep (fun m hm => hmems m (List.mem_cons_of_mem _ hm)) fun m hm =>
      hlocs m (List.mem_cons_of_mem _ hm)).congr (fun _ => Iff.rfl) (fun _ _ => rfl) fun v _ => ?_
    simp only [List.exists_mem_cons_iff]
    by_cases hva : v = a :: t
    · subst hva
      rw [if_pos (.inl rfl), Function.update_self]
      split_ifs <;> rfl
    · rw [Function.update_of_ne hva]
      simp only [hva, false_or]

theorem adopt (h : p.Draws c M loc data) (hls : IsLabels ls) (hne : ls ≠ [])
    (hmems : ∀ m ∈ ls, M (m :: t)) (hlocs : ∀ m ∈ ls, loc (m :: t) = k ^^^ m.toNat)
    (hsibling : ∀ m ∈ ls, (data (m :: t)).sibling = nextLabel m ls) (e : Nat) :
    (p.adopt e k (ls.headD 0)).Draws c M loc fun v =>
      if ∃ m ∈ ls, v = m :: t then { data v with check := e } else data v := by
  have hlinks : p.Links k ls := by
    intro m hm
    rw [← hlocs m hm, h.slot_eq (hmems m hm), hsibling m hm]
  have hchain : p.chainFrom k maxChildren (ls.headD 0) = ls := by
    obtain ⟨a, ls, rfl⟩ := List.exists_cons_of_ne_nil hne
    exact chainFrom_eq hlinks hls hls.length_le
  unfold Pool.adopt
  rw [hchain]
  exact h.foldl_setCheck hmems hlocs e

/-- Where the nodes are after node `t` moved to slot `e`, with `w` for the slot it left. -/
def moved (loc : Trail → Nat) (t w : Trail) (e : Nat) : Trail → Nat :=
  Function.update (Function.update loc w (loc t)) t e

/-- What the slots hold after node `t` with children `ls` moved to slot `e`, as a child of slot `n`
with this label after it. -/
def movedData (data : Trail → Slot) (t w : Trail) (ls : List UInt8) (e n : Nat) (next : UInt8) :
    Trail → Slot := fun v =>
  if v = t then { data t with check := n, sibling := next }
  else if v = w then data t
  else if ∃ m ∈ ls, v = m :: t then { data v with check := e }
  else data v

variable (ls) in
/-- The new slot `e` is drawn as that of `w` at first: in the end node `t` and `w` change places. -/
theorem swap_moved {data' : Trail → Slot} {n : Nat} {next : UInt8}
    (h : p.Draws c (fun v => M v ∨ v = w) (Function.update loc w e) data') (ht : M t) (htw : t ≠ w)
    (htdata : data' t = data t)
    (hwdata : data' w = { data t with check := n, sibling := next })
    (hother : ∀ v, v ≠ t → v ≠ w → data' v =
      if ∃ m ∈ ls, v = m :: t then { data v with check := e } else data v) :
    p.Draws c (fun v => M v ∨ v = w) (moved loc t w e) (movedData data t w ls e n next) := by
  refine (h.swap (t := t) (u := w) (.inl ht) (.inr rfl)).congr (fun _ => Iff.rfl)
    (fun v _ => ?_) fun v _ => ?_
  · unfold moved
    rw [Function.comp_apply, Equiv.swap_apply_def]
    split_ifs with hvt hvw
    · rw [hvt, Function.update_self, Function.update_self]
    · rw [hvw, Function.update_of_ne htw.symm, Function.update_self, Function.update_of_ne htw]
    · rw [Function.update_of_ne hvt, Function.update_of_ne hvw, Function.update_of_ne hvw]
  · unfold movedData
    rw [Function.comp_apply, Equiv.swap_apply_def]
    split_ifs with hvt hvw hex
    · exact hwdata.symm
    · exact htdata.symm
    · rw [hother v hvt hvw, if_pos hex]
    · rw [hother v hvt hvw, if_neg hex]

/-- **A child moves**, with its word and its children, and leaves its slot to `w`. -/
theorem moveChild (h : p.Draws c M loc data) (ht : M (l :: q)) (hw : ¬ M w)
    (hbelow : Below c M loc data l (l :: q) ls) (hfree : p.Free (k ^^^ l.toNat)) (n : Nat)
    (next : UInt8) :
    ((p.settle c n k l next).carry c (loc (l :: q)) (k ^^^ l.toNat) l).Draws c
      (fun v => M v ∨ v = w) (moved loc (l :: q) w (k ^^^ l.toNat))
      (movedData data (l :: q) w ls (k ^^^ l.toNat) n next) := by
  have hwt : l :: q ≠ w := by rintro rfl; exact hw ht
  have hwm : ∀ m ∈ ls, m :: l :: q ≠ w := by
    rintro m hm rfl
    exact hw (hbelow.mems m hm)
  generalize he : k ^^^ l.toNat = e at hfree ⊢
  -- the new slot is drawn as that of `w` until the end
  have hoccupy := h.occupy hfree hw l n
  have hloc : Function.update loc w e w = e := Function.update_self ..
  have hloct : Function.update loc w e (l :: q) = loc (l :: q) := Function.update_of_ne hwt ..
  have hsettle := hoccupy.setSibling (.inr rfl) next
  rw [hloc] at hsettle
  have hdatat : ∀ s s', Function.update (Function.update data w s) w s' (l :: q) = data (l :: q) :=
    fun s s' => by rw [Function.update_of_ne hwt, Function.update_of_ne hwt]
  have hslot := hsettle.slot_eq (t := l :: q) (.inl ht)
  rw [hloct, hdatat] at hslot
  have hbase := hsettle.setBase (.inr rfl) (data (l :: q)).base
  rw [hloc] at hbase
  unfold carry settle
  rw [he]
  dsimp only
  rw [hslot]
  by_cases hls : ls = []
  · have hdone := swap_moved ls hbase ht hwt (by rw [Function.update_of_ne hwt, hdatat]) (by
        simp only [Function.update_self, hbelow.child, hls]
        rfl) fun v hvt hvw => by
        simp [hls, Function.update_of_ne hvw]
    split_ifs with hleaf
    · exact hdone
    · have hnone := (hbelow.leaf hls).resolve_left fun h0 => hleaf (.inl h0)
      rw [hnone.resolve_left fun hv => hleaf (.inr hv)]
      exact hdone
  obtain ⟨hl0, kk, hkk, hlocs⟩ := hbelow.inner hls
  have hinner : ¬ (l = 0 ∨ c.encoding.holdsValue (data (l :: q)).base = true) := by
    rw [hkk, Encoding.holdsValue_ofOffset]
    simp [hl0]
  rw [if_neg hinner, hkk, Encoding.offset?_ofOffset]
  dsimp only
  have hchild : ((((p.occupy c e l n).setSibling e next).setBase e
      (c.encoding.ofOffset kk)).slot (loc (l :: q))).child = ls.headD 0 := by
    have hslot' := hbase.slot_eq (t := l :: q) (.inl ht)
    rw [hloct, Function.update_of_ne hwt, hdatat, hkk] at hslot'
    rw [hslot', hbelow.child]
  have hset := hbase.setChild (.inr rfl) (ls.headD 0)
  rw [hloc, hkk] at hset
  rw [hchild]
  have hadopt := hset.adopt (t := l :: q) hbelow.labels hls (fun m hm => .inl (hbelow.mems m hm))
    (fun m hm => by rw [Function.update_of_ne (hwm m hm), hlocs m hm])
    (fun m hm => by
      simp only [Function.update_of_ne (hwm m hm)]
      exact hbelow.sibling m hm) e
  refine swap_moved ls hadopt ht hwt ?_ ?_ fun v hvt hvw => ?_
  · rw [if_neg (by simp), Function.update_of_ne hwt, Function.update_of_ne hwt, hdatat]
  · rw [if_neg fun ⟨m, hm, hwm'⟩ => hwm m hm hwm'.symm]
    simp only [Function.update_self, hbelow.child, hkk]
  · simp only [Function.update_of_ne hvw]

end Draws

end Pool

end DoubleArrayTrie
