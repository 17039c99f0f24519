import DoubleArrayTrie.Trie.Erase
import DoubleArrayTrie.Trie.Insert
import DoubleArrayTrie.Proofs.Pool.Lockstep

/-!
# Tries in lockstep

What the trie does to a pool it does through the allocator and by writes to slots, so it keeps a
relation that these keep: pools in lockstep stay in lockstep when a value is stored and when a key is
erased, and the answers are the same.

* `SameSlots.find_eq`: pools with the same slots answer the same.
* `Lockstep.store`, `Writes.erase`: changes keep the relation. To erase a key takes no growth.
-/

namespace DoubleArrayTrie

namespace Pool

/-! ### Reading -/

namespace SameSlots

variable {c : Config} {p q : Pool}

theorem offsetOf_eq (h : p.SameSlots q) (n : Nat) : p.offsetOf c n = q.offsetOf c n := by
  simp only [offsetOf, h.slot_eq]

theorem child?_eq (h : p.SameSlots q) (n : Nat) (label : UInt8) :
    p.child? c n label = q.child? c n label := by
  simp only [child?, h.slot_eq]

theorem valueAt_eq (h : p.SameSlots q) (n : Nat) : p.valueAt c n = q.valueAt c n := by
  simp only [valueAt, h.slot_eq]

theorem valueSlot_eq (h : p.SameSlots q) (n : Nat) : p.valueSlot c n = q.valueSlot c n := by
  simp only [valueSlot, h.slot_eq, h.offsetOf_eq]

theorem walk_eq (h : p.SameSlots q) (n : Nat) (key : Key) : p.walk c n key = q.walk c n key := by
  induction key generalizing n with
  | nil => rfl
  | cons label labels ih => simp only [walk, h.child?_eq, ih]

/-- Pools with the same slots answer the same. -/
theorem find_eq (h : p.SameSlots q) (key : Key) : p.find c key = q.find c key := by
  simp only [find, h.walk_eq, h.valueAt_eq]

end SameSlots

namespace Alike

variable {p q : Pool}

theorem chainFrom_eq (h : p.Alike q) (k n : Nat) (label : UInt8) :
    p.chainFrom k n label = q.chainFrom k n label := by
  induction n generalizing label with
  | zero => rfl
  | succ n ih => simp only [chainFrom, h.slot_eq, ih]

theorem chain_eq (h : p.Alike q) (n k : Nat) : p.chain n k = q.chain n k := by
  simp only [chain, h.slot_eq, h.chainFrom_eq]

theorem lastBelow_eq (h : p.Alike q) (k : Nat) (label : UInt8) (n : Nat) (l : UInt8) :
    p.lastBelow k label n l = q.lastBelow k label n l := by
  induction n generalizing l with
  | zero => rfl
  | succ n ih => simp only [lastBelow, h.slot_eq, ih]

theorem before?_eq (h : p.Alike q) (k : Nat) (label : UInt8) (n : Nat) (l : UInt8) :
    p.before? k label n l = q.before? k label n l := by
  induction n generalizing l with
  | zero => rfl
  | succ n ih => simp only [before?, h.slot_eq, ih]

end Alike

namespace Writes

variable {c : Config} {R : Pool → Pool → Prop} {p q : Pool}

/-! ### Chains -/

theorem linkChild (h : Writes R) (hR : R p q) (ordered : Bool) (n k : Nat) (label : UInt8)
    (hasChildren : Bool) :
    R (p.linkChild ordered n k label hasChildren) (q.linkChild ordered n k label hasChildren) := by
  unfold Pool.linkChild
  dsimp only
  rw [(h.alike hR).slot_eq, (h.alike hR).lastBelow_eq, (h.alike hR).slot_eq]
  split_ifs
  · exact h.setSibling (h.setSibling hR _ _) _ _
  · exact h.setSibling (h.setChild hR _ _) _ _
  · exact h.setSibling (h.setSibling hR _ _) _ _
  · exact h.setSibling (h.setChild hR _ _) _ _

theorem unlinkChild (h : Writes R) (hR : R p q) (n k : Nat) (label : UInt8) :
    R (p.unlinkChild n k label) (q.unlinkChild n k label) := by
  unfold Pool.unlinkChild
  dsimp only
  rw [(h.alike hR).slot_eq, (h.alike hR).slot_eq, (h.alike hR).before?_eq]
  split_ifs
  · exact h.setChild hR _ _
  · split
    · exact hR
    · exact h.setSibling hR _ _

/-! ### Moving children -/

theorem adopt (h : Writes R) (hR : R p q) (e k : Nat) (first : UInt8) :
    R (p.adopt e k first) (q.adopt e k first) := by
  unfold Pool.adopt
  rw [(h.alike hR).chainFrom_eq]
  exact List.foldl_rel hR fun _ _ _ _ hR => h.setCheck hR _ _

theorem carry (h : Writes R) (hR : R p q) (old new : Nat) (label : UInt8) :
    R (p.carry c old new label) (q.carry c old new label) := by
  unfold Pool.carry
  dsimp only
  rw [(h.alike hR).slot_eq]
  have hbase := h.setBase hR new (q.slot old).base
  split_ifs
  · exact hbase
  · split
    · exact hbase
    · rw [(h.alike hbase).slot_eq]
      exact h.adopt (h.setChild hbase new _) new _ _

theorem settle (h : Writes R) (hR : R p q) (n k : Nat) (label next : UInt8) :
    R (p.settle c n k label next) (q.settle c n k label next) :=
  h.setSibling (h.occupy hR _ label n) _ _

theorem moveWith (h : Writes R) (hR : R p q) (n k k' : Nat) (wanted : UInt8)
    (labels : List UInt8) :
    R (p.moveWith c n k k' wanted labels) (q.moveWith c n k k' wanted labels) := by
  refine List.foldl_rel hR fun x _ p q hR => ?_
  have hsettle := h.settle (c := c) hR n k' x.1 x.2
  dsimp only
  split_ifs
  · exact hsettle
  · exact h.release (h.carry hsettle _ _ _) _

theorem yieldSlot (h : Writes R) (hR : R p q) (owner k k' : Nat) (r : Request)
    (label next : UInt8) :
    Both R (p.yieldSlot c owner k k' r label next) (q.yieldSlot c owner k k' r label next) := by
  have hcarry := h.carry (c := c) (h.settle (c := c) hR owner k' label next) (k ^^^ label.toNat)
    (k' ^^^ label.toNat) label
  unfold Pool.yieldSlot
  dsimp only
  split_ifs
  · exact .intro (h.setNode (h.setChild (h.linkChild hcarry _ _ _ _ _) _ _) _ _ _) _
  · exact .intro (h.release hcarry _) _
  · exact .intro (h.setNode (h.setChild (h.linkChild hcarry _ _ _ _ _) _ _) _ _ _) _
  · exact .intro (h.release hcarry _) _

theorem moveAway (h : Writes R) (hR : R p q) (owner k k' : Nat) (labels : List UInt8)
    (r : Request) : R (p.moveAway c owner k k' labels r) (q.moveAway c owner k k' labels r) := by
  have hboth : Both R (p, r) (q, r) := ⟨hR, rfl⟩
  refine (List.foldl_rel (r := Both R) hboth fun x _ y z hyz => ?_).1
  obtain ⟨p, r⟩ := y
  obtain ⟨q, r'⟩ := z
  obtain ⟨hR, hr⟩ := hyz
  obtain rfl : r = r' := hr
  exact h.yieldSlot hR owner k k' r x.1 x.2

/-! ### Erasing a key -/

theorem prune (h : Writes R) (hR : R p q) (n e : Nat) : R (p.prune c n e) (q.prune c n e) := by
  induction n generalizing p q e with
  | zero => exact hR
  | succ n ih =>
    unfold Pool.prune
    dsimp only
    rw [(h.alike hR).slot_eq, (h.alike hR).slots.offsetOf_eq, (h.alike hR).slot_eq, (h.alike hR).slot_eq]
    split_ifs
    · exact h.release (h.unlinkChild hR _ _ _) e
    · exact ih (h.release hR e) _

/-- **Keys are erased in lockstep.** -/
theorem erase (h : Writes R) (hR : R p q) (key : Key) :
    Both R (p.erase c key) (q.erase c key) := by
  unfold Pool.erase
  rw [(h.alike hR).slots.walk_eq]
  split
  · exact .intro hR _
  · rw [(h.alike hR).slots.valueAt_eq]
    split
    · rw [(h.alike hR).slots.valueSlot_eq]
      exact .intro (h.prune hR _ _) _
    · exact .intro hR _

end Writes

namespace Lockstep

variable {c : Config} {R : Pool → Pool → Prop} {p q : Pool}

/-! ### Moving children -/

theorem place (h : Lockstep c R) (hR : R p q) (labels : List UInt8) :
    Both R (p.place c labels) (q.place c labels) := by
  unfold Pool.place
  split
  · exact h.placeOne hR
  · exact h.placeOne hR
  · exact h.placeFor hR _

theorem relocate (h : Lockstep c R) (hR : R p q) (r : Request) :
    Both R (p.relocate c r) (q.relocate c r) := by
  unfold Pool.relocate
  dsimp only
  rw [(h.alike hR).slot_eq, (h.alike hR).slots.offsetOf_eq, (h.alike hR).chain_eq, (h.alike hR).chain_eq]
  split_ifs with hlength hfirst
  · obtain ⟨hplace, he⟩ := h.place hR (insertLabel c.ordered r.label (q.chain r.node r.offset))
    rw [he]
    exact .intro (h.moveWith (h.setBase (h.setChild hplace _ _) _ _) _ _ _ _ _) _
  · obtain ⟨hplace, he⟩ := h.place hR (insertLabel c.ordered r.label (q.chain r.node r.offset))
    rw [he]
    exact .intro (h.moveWith (h.setBase hplace _ _) _ _ _ _ _) _
  · obtain ⟨hplace, he⟩ := h.place hR (q.chain (q.slot r.slot).check.toNat
      (q.offsetOf c (q.slot r.slot).check.toNat))
    rw [he]
    exact .intro (h.moveAway (h.setBase hplace _ _) _ _ _ _ _) _

/-! ### Storing a value -/

theorem ensureChild (h : Lockstep c R) (hR : R p q) (n : Nat) (label : UInt8) :
    Both R (p.ensureChild c n label) (q.ensureChild c n label) := by
  unfold Pool.ensureChild
  dsimp only
  rw [(h.alike hR).slot_eq]
  split
  · obtain ⟨hplace, he⟩ := h.placeOne hR
    rw [he]
    exact .intro (h.linkChild (h.setBase (h.occupy hplace _ _ _) _ _) _ _ _ _ _) _
  · rename_i k _
    rw [(h.alike hR).slot_eq]
    split_ifs
    · exact .intro (h.linkChild (h.occupy hR _ _ _) _ _ _ _ _) _
    · exact .intro hR _
    · exact h.relocate hR _

theorem openLeaf (h : Lockstep c R) (hR : R p q) (n : Nat) : R (p.openLeaf c n) (q.openLeaf c n) := by
  unfold Pool.openLeaf
  dsimp only
  rw [(h.alike hR).slot_eq]
  split_ifs
  · obtain ⟨hchild, he⟩ := h.ensureChild hR n 0
    rw [he]
    exact h.setBase hchild _ _
  · exact hR

theorem ensurePath (h : Lockstep c R) (hR : R p q) (n : Nat) (key : Key) :
    Both R (p.ensurePath c n key) (q.ensurePath c n key) := by
  induction key generalizing p q n with
  | nil => exact .intro hR _
  | cons label labels ih =>
    unfold Pool.ensurePath
    obtain ⟨hchild, he⟩ := h.ensureChild (h.openLeaf hR n) n label
    dsimp only
    rw [he]
    exact ih hchild _

/-- **Values are stored in lockstep.** -/
theorem store (h : Lockstep c R) (hR : R p q) (key : Key) (value : Int32) :
    Both R (p.store c key value) (q.store c key value) := by
  unfold Pool.store
  obtain ⟨hpath, hn⟩ := h.ensurePath hR 0 key
  dsimp only
  rw [hn, (h.alike hpath).slots.valueAt_eq, (h.alike hpath).slot_eq]
  split_ifs
  · exact .intro (h.setBase hpath _ _) _
  · obtain ⟨hchild, he⟩ := h.ensureChild hpath (q.ensurePath c 0 key).2 0
    rw [he]
    exact .intro (h.setBase hchild _ _) _

end Lockstep

end Pool

end DoubleArrayTrie
