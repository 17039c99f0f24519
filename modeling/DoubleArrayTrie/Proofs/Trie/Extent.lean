import DoubleArrayTrie.Proofs.Pool.Placing
import DoubleArrayTrie.Proofs.Pool.Releasing
import DoubleArrayTrie.Proofs.Pool.Taking
import DoubleArrayTrie.Proofs.Trie.Lockstep

/-!
# How many blocks are in use

Blocks come into use when room is looked for in vain, one at a time, and never go out of use. All else
that storing and erasing do leaves their number as it is.

* `Pool.size_place`: room that is found.
* `Pool.size_relocate`: a conflict over a slot.
* `Pool.size_erase`: a key that is erased.
* `Pool.stretch_store`: a value that is stored, and how large the arrays are then.
* `Pool.capacity_store_singleton`: a key that needs no room.
-/

namespace DoubleArrayTrie

namespace Pool

variable {p q : Pool}

/-! ### Chains -/

@[simp] theorem size_linkChild (ordered : Bool) (p : Pool) (n k : Nat) (label : UInt8)
    (hasChildren : Bool) : (p.linkChild ordered n k label hasChildren).size = p.size := by
  unfold Pool.linkChild
  dsimp only
  split_ifs <;> rfl

@[simp] theorem size_unlinkChild (p : Pool) (n k : Nat) (label : UInt8) :
    (p.unlinkChild n k label).size = p.size := by
  unfold unlinkChild
  dsimp only
  split
  · rfl
  · split <;> rfl

theorem capacity_linkChild (ordered : Bool) (p : Pool) (n k : Nat) (label : UInt8)
    (hasChildren : Bool) : (p.linkChild ordered n k label hasChildren).capacity = p.capacity := by
  unfold Pool.linkChild setSibling setChild
  dsimp only
  split_ifs <;> rw [capacity_modifySlot, capacity_modifySlot]

/-- Chains are of no matter for the words of nodes. -/
theorem base_linkChild (ordered : Bool) (p : Pool) (n k : Nat) (label : UInt8) (hasChildren : Bool)
    (i : Nat) : ((p.linkChild ordered n k label hasChildren).slot i).base = (p.slot i).base := by
  have hsibling : ∀ (p : Pool) (j : Nat) (l : UInt8),
      ((p.setSibling j l).slot i).base = (p.slot i).base := by
    intro p j l
    unfold setSibling
    rw [slot_modifySlot]
    split_ifs <;> rfl
  have hchild : ((p.setChild n label).slot i).base = (p.slot i).base := by
    unfold setChild
    rw [slot_modifySlot]
    split_ifs <;> rfl
  unfold linkChild
  dsimp only
  split_ifs <;> simp only [hsibling, hchild]

theorem capacity_unlinkChild (p : Pool) (n k : Nat) (label : UInt8) :
    (p.unlinkChild n k label).capacity = p.capacity := by
  unfold unlinkChild setSibling setChild
  dsimp only
  split
  · exact capacity_modifySlot ..
  · split
    · rfl
    · exact capacity_modifySlot ..

/-! ### Finding room -/

@[simp] theorem size_searchOpen (c : Config) (p : Pool) (labels : List UInt8) (last : Int)
    (n b : Nat) : (p.searchOpen c labels last n b).1.size = p.size := by
  induction n generalizing p b with
  | zero => rfl
  | succ n ih =>
    unfold searchOpen
    split
    · rfl
    · dsimp only
      split_ifs
      · exact size_learn ..
      · rw [ih, size_learn]

theorem size_addBlock (c : Config) (p : Pool) : (p.addBlock c).1.size = p.size + blockSize := by
  unfold addBlock
  dsimp only
  rw [size_openBlock]
  split_ifs
  · rw [size_grow]
  · rfl

/-- **Room for children** is in a block that is in use, or in one that comes into use for it. -/
theorem size_place (c : Config) (p : Pool) (labels : List UInt8) :
    (p.place c labels).1.size = p.size ∨ (p.place c labels).1.size = p.size + blockSize := by
  have hone : (p.placeOne c).1.size = p.size ∨ (p.placeOne c).1.size = p.size + blockSize := by
    unfold placeOne
    split_ifs
    · exact .inl rfl
    · exact .inl rfl
    · exact .inr (size_addBlock c p)
  have hmany : (p.placeFor c labels).1.size = p.size ∨
      (p.placeFor c labels).1.size = p.size + blockSize := by
    have hsearch := size_searchOpen c p labels (p.block p.openHead).prev p.visitBound p.openHead
    unfold placeFor
    split_ifs
    · exact .inr (size_addBlock c p)
    · split
      · next heq =>
        rw [heq] at hsearch
        exact .inl hsearch
      · next q heq =>
        rw [heq] at hsearch
        refine .inr ((size_addBlock ..).trans ?_)
        exact congrArg (· + blockSize) hsearch
  unfold place
  split
  · exact hone
  · exact hone
  · exact hmany

/-! ### Moving children -/

@[simp] theorem size_adopt (p : Pool) (e k : Nat) (first : UInt8) :
    (p.adopt e k first).size = p.size := by
  unfold adopt
  refine List.foldlRecOn (motive := fun q : Pool => q.size = p.size) _ _ rfl fun q hq l _ => ?_
  exact hq

@[simp] theorem size_carry (c : Config) (p : Pool) (old new : Nat) (label : UInt8) :
    (p.carry c old new label).size = p.size := by
  unfold carry
  dsimp only
  split_ifs
  · rfl
  · split
    · rfl
    · exact size_adopt ..

@[simp] theorem size_settle (c : Config) (p : Pool) (n k : Nat) (label next : UInt8) :
    (p.settle c n k label next).size = p.size :=
  size_occupy c p (k ^^^ label.toNat) label n

@[simp] theorem size_moveWith (c : Config) (n k k' : Nat) (wanted : UInt8) (labels : List UInt8)
    (p : Pool) : (p.moveWith c n k k' wanted labels).size = p.size := by
  unfold moveWith
  refine List.foldlRecOn (motive := fun q : Pool => q.size = p.size) _ _ rfl fun q hq l _ => ?_
  dsimp only
  split_ifs
  · rw [size_settle, hq]
  · rw [size_release, size_carry, size_settle, hq]

@[simp] theorem size_yieldSlot (c : Config) (owner k k' : Nat) (p : Pool) (r : Request)
    (label next : UInt8) : (p.yieldSlot c owner k k' r label next).1.size = p.size := by
  unfold yieldSlot
  dsimp only
  split_ifs <;> simp [setNode, setChild]

@[simp] theorem size_moveAway (c : Config) (owner k k' : Nat) (labels : List UInt8) (p : Pool)
    (r : Request) : (p.moveAway c owner k k' labels r).size = p.size := by
  unfold moveAway
  refine List.foldlRecOn (motive := fun x : Pool × Request => x.1.size = p.size) _ _ rfl
    fun x hx l _ => ?_
  exact (size_yieldSlot ..).trans hx

/-- **A conflict over a slot** puts at most one more block to use. -/
theorem size_relocate (c : Config) (p : Pool) (r : Request) :
    (p.relocate c r).1.size = p.size ∨ (p.relocate c r).1.size = p.size + blockSize := by
  unfold relocate
  dsimp only
  split_ifs <;> simp [size_place, setBase, setChild]

/-! ### Erasing -/

@[simp] theorem size_prune (c : Config) (fuel : Nat) (p : Pool) (e : Nat) :
    (p.prune c fuel e).size = p.size := by
  induction fuel generalizing p e with
  | zero => rfl
  | succ fuel ih =>
    unfold prune
    dsimp only
    split_ifs
    · rw [size_release, size_unlinkChild]
    · rw [ih, size_release]

/-- **A key that is erased** leaves all blocks in use. -/
theorem size_erase (c : Config) (p : Pool) (key : Key) : (p.erase c key).1.size = p.size := by
  unfold erase
  split
  · rfl
  · split
    · exact size_prune ..
    · rfl

/-! ### The capacity -/

/-- No write but growth makes the arrays larger. -/
theorem writes_capacity (n : Nat) : Writes fun p q => p = q ∧ p.capacity = n :=
  writes_backing fun _ m => m = n

theorem capacity_moveWith (c : Config) (n k k' : Nat) (wanted : UInt8) (labels : List UInt8)
    (p : Pool) : (p.moveWith c n k k' wanted labels).capacity = p.capacity :=
  ((writes_capacity p.capacity).moveWith ⟨rfl, rfl⟩ n k k' wanted labels).2

theorem capacity_moveAway (c : Config) (owner k k' : Nat) (labels : List UInt8) (p : Pool)
    (r : Request) : (p.moveAway c owner k k' labels r).capacity = p.capacity :=
  ((writes_capacity p.capacity).moveAway ⟨rfl, rfl⟩ owner k k' labels r).2

theorem capacity_erase (c : Config) (p : Pool) (key : Key) :
    (p.erase c key).1.capacity = p.capacity :=
  ((writes_capacity p.capacity).erase ⟨rfl, rfl⟩ key).1.2

/-! ### How large the arrays become -/

/-- Pool `q` has at most `k` more blocks in use than pool `p`, and if at least half of the slots of `p`
are in use then so are those of `q`. -/
structure Stretch (k : Nat) (p q : Pool) : Prop where
  size_le : q.size ≤ p.size + k * blockSize
  capacity_le : p.capacity ≤ 2 * p.size → q.capacity ≤ 2 * q.size

section

variable {c : Config} {k l n : Nat} {r : Pool}

namespace Stretch

theorem refl (p : Pool) : p.Stretch 0 p := ⟨le_self_add, id⟩

/-- Writes that put no block to use. -/
theorem of_same (h : p.Stretch k q) (hsize : r.size = q.size) (hcapacity : r.capacity = q.capacity) :
    p.Stretch k r := by
  refine ⟨?_, fun hp => ?_⟩
  · rw [hsize]
    exact h.size_le
  · rw [hsize, hcapacity]
    exact h.capacity_le hp

theorem trans (h : p.Stretch k q) (h' : q.Stretch l r) : p.Stretch (k + l) r := by
  refine ⟨?_, fun hp => h'.capacity_le (h.capacity_le hp)⟩
  have hle := h.size_le
  have hle' := h'.size_le
  rw [Nat.add_mul]
  omega

theorem mono (h : p.Stretch k q) (hle : k ≤ l) : p.Stretch l q :=
  ⟨h.size_le.trans (Nat.add_le_add_left (Nat.mul_le_mul_right _ hle) _), h.capacity_le⟩

end Stretch

/-- **A block is added** where all slots are in use, or where there is room for it. -/
theorem stretch_addBlock (c : Config) (p : Pool) : p.Stretch 1 (p.addBlock c).1 := by
  refine ⟨by rw [size_addBlock, Nat.one_mul], fun hp => ?_⟩
  rw [size_addBlock]
  unfold addBlock
  dsimp only
  rw [capacity_openBlock]
  split_ifs with hfull
  · have hstep := c.growth.step_le p.capacity
    rw [capacity_grow]
    omega
  · omega

theorem stretch_placeOne (c : Config) (p : Pool) : p.Stretch 1 (p.placeOne c).1 := by
  unfold placeOne
  split_ifs
  · exact (Stretch.refl p).mono (Nat.zero_le 1)
  · exact (Stretch.refl p).mono (Nat.zero_le 1)
  · exact stretch_addBlock c p

theorem stretch_placeFor (c : Config) (p : Pool) (labels : List UInt8) :
    p.Stretch 1 (p.placeFor c labels).1 := by
  unfold placeFor
  split_ifs
  · exact stretch_addBlock c p
  · have hsize := size_searchOpen c p labels (p.block p.openHead).prev p.visitBound p.openHead
    have hslots := slots_searchOpen c p labels (p.block p.openHead).prev p.visitBound p.openHead
    revert hsize hslots
    generalize p.searchOpen c labels _ _ _ = x
    obtain ⟨q, found⟩ := x
    intro hsize hslots
    have hsearch : p.Stretch 0 q := (Stretch.refl p).of_same hsize (congrArg Array.size hslots)
    cases found with
    | some e => exact hsearch.mono (Nat.zero_le 1)
    | none => exact (hsearch.of_same (r := q.log _) rfl rfl).trans (stretch_addBlock c _)

theorem stretch_place (c : Config) (p : Pool) (labels : List UInt8) :
    p.Stretch 1 (p.place c labels).1 := by
  unfold place
  split
  · exact stretch_placeOne c p
  · exact stretch_placeOne c p
  · exact stretch_placeFor c p _

/-- Children are moved to a place that was found for them. -/
theorem stretch_relocate (c : Config) (p : Pool) (r : Request) :
    p.Stretch 1 (p.relocate c r).1 := by
  unfold relocate
  dsimp only
  split_ifs
  · exact (stretch_place c p (insertLabel c.ordered r.label (p.chain r.node r.offset))).of_same
      (by simp [setBase, setChild]) (by simp [capacity_moveWith, setBase, setChild])
  · exact (stretch_place c p (insertLabel c.ordered r.label (p.chain r.node r.offset))).of_same
      (by simp [setBase]) (by simp [capacity_moveWith, setBase])
  · exact (stretch_place c p (p.chain (p.slot r.slot).check.toNat
      (p.offsetOf c (p.slot r.slot).check.toNat))).of_same
      (by simp [setBase]) (by simp [capacity_moveAway, setBase])

theorem stretch_ensureChild (c : Config) (p : Pool) (n : Nat) (label : UInt8) :
    p.Stretch 1 (p.ensureChild c n label).1 := by
  have hnone : p.Stretch 1 p := (Stretch.refl p).mono (Nat.zero_le 1)
  unfold ensureChild
  split
  · refine (stretch_placeOne c p).of_same (by simp [setBase]) ?_
    rw [capacity_linkChild, setBase, capacity_modifySlot, capacity_occupy]
  · dsimp only
    split_ifs
    · exact hnone.of_same (by simp) (by rw [capacity_linkChild, capacity_occupy])
    · exact hnone
    · exact stretch_relocate c p _

theorem stretch_openLeaf (c : Config) (p : Pool) (n : Nat) : p.Stretch 1 (p.openLeaf c n) := by
  unfold openLeaf
  dsimp only
  split_ifs
  · exact (stretch_ensureChild c p n 0).of_same rfl (capacity_modifySlot ..)
  · exact (Stretch.refl p).mono (Nat.zero_le 1)

/-- Each byte of a key needs a node, and may turn a leaf into a node with a terminal. -/
theorem stretch_ensurePath (c : Config) (p : Pool) (n : Nat) (key : Key) :
    p.Stretch (2 * key.length) (p.ensurePath c n key).1 := by
  induction key generalizing p n with
  | nil => exact Stretch.refl p
  | cons label labels ih =>
    have hstep := (stretch_openLeaf c p n).trans (stretch_ensureChild c _ n label)
    refine (hstep.trans (ih _ _)).mono ?_
    rw [List.length_cons]
    omega

/-- **A value that is stored** needs at most two blocks for each byte of its key, and one for itself. -/
theorem stretch_store (c : Config) (p : Pool) (key : Key) (value : Int32) :
    p.Stretch (2 * key.length + 1) (p.store c key value).1 := by
  have hpath := stretch_ensurePath c p 0 key
  unfold store
  dsimp only
  split_ifs
  · exact (hpath.mono (Nat.le_succ _)).of_same rfl (capacity_modifySlot ..)
  · exact (hpath.trans (stretch_ensureChild c _ _ 0)).of_same rfl (capacity_modifySlot ..)

end

/-! ### A key that needs no room -/

section

variable {c : Config} {n k : Nat} {label : UInt8}

/-- A child takes its slot if that is free. -/
theorem ensureChild_of_free (hoffset : c.encoding.offset? (p.slot n).base = some k)
    (hfree : (p.slot (k ^^^ label.toNat)).check < 0) : p.ensureChild c n label =
      ((p.occupy c (k ^^^ label.toNat) label n).linkChild c.ordered n k label true,
        k ^^^ label.toNat) := by
  unfold ensureChild
  rw [hoffset]
  exact if_pos hfree

/-- **The first key of a trie**, if it has one byte, fits into block `0`: its node is a child of the root
and holds the value. -/
theorem capacity_store_singleton (hc : c.encoding = .reduced) (hlabel : label ≠ 0) (value : Int32) :
    ((Pool.empty c.encoding.rootBase).store c [label] value).1.capacity = blockSize := by
  have hpos : 1 ≤ label.toNat ∧ label.toNat ≤ 255 :=
    ⟨Nat.pos_of_ne_zero fun h => hlabel (UInt8.toNat_inj.mp h), Nat.le_of_lt_succ label.toNat_lt⟩
  have hroot : ((Pool.empty c.encoding.rootBase).slot 0).base = c.encoding.rootBase := by
    rw [slot_empty]
    rfl
  have hopen : (Pool.empty c.encoding.rootBase).openLeaf c 0 = Pool.empty c.encoding.rootBase := by
    unfold openLeaf
    dsimp only
    rw [hroot, hc]
    rfl
  have hfree : ((Pool.empty c.encoding.rootBase).slot (0 ^^^ label.toNat)).check < 0 := by
    rw [Nat.zero_xor, slot_empty, if_pos hpos]
    dsimp only
    split_ifs <;> omega
  have hchild := ensureChild_of_free (c := c) (n := 0) (k := 0)
    (by rw [hroot, c.encoding.rootBase_eq]; exact c.encoding.offset?_ofOffset 0) hfree
  have hleaf : ((((Pool.empty c.encoding.rootBase).occupy c (0 ^^^ label.toNat) label 0).linkChild
      c.ordered 0 0 label true).slot (0 ^^^ label.toNat)).base = Encoding.unset := by
    have hlt : 0 ^^^ label.toNat < blockSize := by
      rw [Nat.zero_xor]
      exact Nat.lt_succ_of_le hpos.2
    unfold occupy setNode
    rw [base_linkChild, slot_modifySlot, if_pos ⟨rfl, by rwa [capacity_take, capacity_empty]⟩, hc]
    rfl
  unfold store ensurePath ensurePath
  rw [hopen, hchild]
  dsimp only
  rw [hleaf, hc, if_pos (by decide)]
  rw [setBase, capacity_modifySlot, capacity_linkChild, capacity_occupy, capacity_empty]

end

end Pool

end DoubleArrayTrie
