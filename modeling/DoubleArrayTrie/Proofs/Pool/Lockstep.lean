import Mathlib.Tactic.SplitIfs
import DoubleArrayTrie.Pool.Place
import DoubleArrayTrie.Pool.FreeList

/-!
# Pools in lockstep

What an operation does to a pool depends on its records alone, and all that it writes it writes
through a few functions. So a relation between pools with the same records that those functions keep
is kept by every operation: two pools that start in such a relation go on in lockstep. With a pool
beside itself this is about a single run, whose pool keeps what the functions keep.

* `Alike`: two pools have the same records.
* `Writes`: a relation that the writing functions keep but growth, and `Writes.of_kept` for a property.
* `Lockstep`: a relation that growth keeps too, and `Lockstep.of_kept` for a property.
* `Writes.take`, `Writes.release`, `Lockstep.placeOne`, `Lockstep.placeFor`: the allocator keeps them.
-/

namespace DoubleArrayTrie

namespace Pool

/-- The pools have the same records, wherever these live. -/
def Alike (p q : Pool) : Prop := p.copy = q.copy

namespace Alike

variable {p q : Pool}

theorem refl (p : Pool) : p.Alike p := rfl

theorem congr {α : Type} (h : p.Alike q) (f : Pool → α) : f p.copy = f q.copy := congrArg f h

theorem slot_eq (h : p.Alike q) (e : Nat) : p.slot e = q.slot e := h.congr (·.slot e)

theorem block_eq (h : p.Alike q) (b : Nat) : p.block b = q.block b := h.congr (·.block b)

theorem reject_eq (h : p.Alike q) (n : Nat) : p.reject n = q.reject n := h.congr (·.reject n)

theorem openHead_eq (h : p.Alike q) : p.openHead = q.openHead := h.congr Pool.openHead

theorem closedHead_eq (h : p.Alike q) : p.closedHead = q.closedHead := h.congr Pool.closedHead

theorem fullHead_eq (h : p.Alike q) : p.fullHead = q.fullHead := h.congr Pool.fullHead

theorem head_eq (h : p.Alike q) (r : Ring) : p.head r = q.head r := by
  cases r
  · exact h.openHead_eq
  · exact h.closedHead_eq
  · exact h.fullHead_eq

theorem size_eq (h : p.Alike q) : p.size = q.size := h.congr Pool.size

theorem capacity_eq (h : p.Alike q) : p.capacity = q.capacity := h.congr Pool.capacity

theorem visitBound_eq (h : p.Alike q) : p.visitBound = q.visitBound := h.congr Pool.visitBound

theorem blocksInUse_eq (h : p.Alike q) : p.blocksInUse = q.blocksInUse := h.congr Pool.blocksInUse

theorem nextFree_eq (h : p.Alike q) (e : Nat) : p.nextFree e = q.nextFree e := h.congr (·.nextFree e)

theorem prevFree_eq (h : p.Alike q) (e : Nat) : p.prevFree e = q.prevFree e := h.congr (·.prevFree e)

theorem nextBlock_eq (h : p.Alike q) (b : Nat) : p.nextBlock b = q.nextBlock b :=
  h.congr (·.nextBlock b)

theorem prevBlock_eq (h : p.Alike q) (b : Nat) : p.prevBlock b = q.prevBlock b :=
  h.congr (·.prevBlock b)

theorem fits_eq (h : p.Alike q) (e : Nat) (labels : List UInt8) :
    p.fits e labels = q.fits e labels := by
  cases labels with
  | nil => rfl
  | cons label labels => simp only [fits, h.slot_eq]

theorem scanFree_eq (h : p.Alike q) (labels : List UInt8) (head n e : Nat) :
    p.scanFree labels head n e = q.scanFree labels head n e := by
  induction n generalizing e with
  | zero => rfl
  | succ n ih => simp only [scanFree, h.fits_eq, h.nextFree_eq, ih]

theorem room?_eq (h : p.Alike q) (b : Nat) (labels : List UInt8) :
    p.room? b labels = q.room? b labels := by
  simp only [room?, h.block_eq, h.scanFree_eq, h.capacity_eq]

end Alike

/-- The pools have the same slots. -/
def SameSlots (p q : Pool) : Prop := p.slots = q.slots

theorem Alike.slots {p q : Pool} (h : p.Alike q) : p.SameSlots q := h.congr Pool.slots

namespace SameSlots

variable {p q : Pool}

theorem slot_eq (h : p.SameSlots q) (e : Nat) : p.slot e = q.slot e := by
  unfold slot
  rw [h]

theorem capacity_eq (h : p.SameSlots q) : p.capacity = q.capacity := congrArg Array.size h

end SameSlots

/-- A relation between pools with the same records that all writes keep but growth. -/
structure Writes (R : Pool → Pool → Prop) : Prop where
  alike : ∀ {p q}, R p q → p.Alike q
  modifySlot : ∀ {p q} i f, R p q → R (p.modifySlot i f) (q.modifySlot i f)
  modifyBlock : ∀ {p q} b f, R p q → R (p.modifyBlock b f) (q.modifyBlock b f)
  setHead : ∀ {p q} r b, R p q → R (p.setHead r b) (q.setHead r b)
  lowerReject : ∀ {p q} k n, R p q → R (p.lowerReject k n) (q.lowerReject k n)
  extend : ∀ {p q} n, R p q → R { p with size := n } { q with size := n }
  log : ∀ {p q} x, R p q → R (p.log x) (q.log x)

/-- A relation between pools with the same records that all writes keep. -/
structure Lockstep (c : Config) (R : Pool → Pool → Prop) : Prop extends Writes R where
  grow : ∀ {p q}, R p q → R (p.grow c) (q.grow c)

/-- The pools are related, and what comes with them is the same. -/
def Both {α : Type} (R : Pool → Pool → Prop) (x y : Pool × α) : Prop := R x.1 y.1 ∧ x.2 = y.2

theorem Both.intro {α : Type} {R : Pool → Pool → Prop} {p q : Pool} (hR : R p q) (a : α) :
    Both R (p, a) (q, a) := ⟨hR, rfl⟩

namespace Writes

variable {c : Config} {R : Pool → Pool → Prop} {p q : Pool}

/-- A property that all writes keep but growth. -/
theorem of_kept {P : Pool → Prop} (hslot : ∀ p i f, P p → P (p.modifySlot i f))
    (hblock : ∀ p b f, P p → P (p.modifyBlock b f)) (hhead : ∀ p r b, P p → P (p.setHead r b))
    (hreject : ∀ p k n, P p → P (p.lowerReject k n))
    (hsize : ∀ (p : Pool) n, P p → P { p with size := n }) (hlog : ∀ p x, P p → P (p.log x)) :
    Writes fun p q => p = q ∧ P p where
  alike h := h.1 ▸ .refl _
  modifySlot i f h := ⟨congrArg (Pool.modifySlot · i f) h.1, hslot _ i f h.2⟩
  modifyBlock b f h := ⟨congrArg (Pool.modifyBlock · b f) h.1, hblock _ b f h.2⟩
  setHead r b h := ⟨congrArg (Pool.setHead · r b) h.1, hhead _ r b h.2⟩
  lowerReject k n h := ⟨congrArg (Pool.lowerReject · k n) h.1, hreject _ k n h.2⟩
  extend n h := ⟨by rw [h.1], hsize _ n h.2⟩
  log x h := ⟨congrArg (Pool.log · x) h.1, hlog _ x h.2⟩

/-! ### Writes to slots -/

theorem setBase (h : Writes R) (hR : R p q) (i : Nat) (raw : Int) :
    R (p.setBase i raw) (q.setBase i raw) := h.modifySlot i _ hR

theorem setCheck (h : Writes R) (hR : R p q) (i : Nat) (parent : Int) :
    R (p.setCheck i parent) (q.setCheck i parent) := h.modifySlot i _ hR

theorem setSibling (h : Writes R) (hR : R p q) (i : Nat) (label : UInt8) :
    R (p.setSibling i label) (q.setSibling i label) := h.modifySlot i _ hR

theorem setChild (h : Writes R) (hR : R p q) (i : Nat) (label : UInt8) :
    R (p.setChild i label) (q.setChild i label) := h.modifySlot i _ hR

theorem setNode (h : Writes R) (hR : R p q) (i : Nat) (raw parent : Int) :
    R (p.setNode i raw parent) (q.setNode i raw parent) := h.modifySlot i _ hR

/-! ### Rings -/

theorem bridge (h : Writes R) (hR : R p q) (b : Nat) : R (p.bridge b) (q.bridge b) := by
  unfold Pool.bridge
  rw [(h.alike hR).prevBlock_eq, (h.alike hR).nextBlock_eq]
  exact h.modifyBlock _ _ (h.modifyBlock _ _ hR)

theorem splice (h : Writes R) (hR : R p q) (b d : Nat) : R (p.splice b d) (q.splice b d) := by
  unfold Pool.splice
  rw [(h.alike hR).prevBlock_eq]
  exact h.modifyBlock _ _ (h.modifyBlock _ _ (h.modifyBlock _ _ (h.modifyBlock _ _ hR)))

theorem detach (h : Writes R) (hR : R p q) (b : Nat) (r : Ring) (alone : Bool) :
    R (p.detach b r alone) (q.detach b r alone) := by
  unfold Pool.detach
  rw [(h.alike hR).nextBlock_eq, (h.alike hR).head_eq]
  split_ifs
  · exact h.setHead r 0 hR
  · exact h.setHead r _ (h.bridge hR b)
  · exact h.bridge hR b

theorem attach (h : Writes R) (hR : R p q) (b : Nat) (r : Ring) (isEmpty : Bool) :
    R (p.attach b r isEmpty) (q.attach b r isEmpty) := by
  unfold Pool.attach
  rw [(h.alike hR).head_eq]
  refine h.setHead r b ?_
  split_ifs
  · exact h.modifyBlock _ _ (h.modifyBlock _ _ hR)
  · exact h.splice hR b _

theorem moveBlock (h : Writes R) (hR : R p q) (b : Nat) (r s : Ring) :
    R (p.moveBlock b r s) (q.moveBlock b r s) := by
  unfold Pool.moveBlock
  rw [(h.alike hR).nextBlock_eq, (h.alike hR).head_eq]
  exact h.attach (h.detach hR b r _) b s _

/-! ### Free lists -/

theorem threadFree (h : Writes R) (hR : R p q) (lo hi : Nat) :
    R (p.threadFree lo hi) (q.threadFree lo hi) :=
  List.foldl_rel hR fun _ _ _ _ hR => h.setNode hR _ _ _

theorem bridgeFree (h : Writes R) (hR : R p q) (e : Nat) :
    R (p.bridgeFree e) (q.bridgeFree e) := by
  unfold Pool.bridgeFree
  rw [(h.alike hR).prevFree_eq, (h.alike hR).nextFree_eq]
  exact h.setBase (h.setCheck hR _ _) _ _

theorem spliceFree (h : Writes R) (hR : R p q) (e f : Nat) :
    R (p.spliceFree e f) (q.spliceFree e f) := by
  unfold Pool.spliceFree
  rw [(h.alike hR).nextFree_eq]
  exact h.setBase (h.setCheck (h.setNode hR _ _ _) _ _) _ _

theorem unlinkFree (h : Writes R) (hR : R p q) (e : Nat) :
    R (p.unlinkFree e) (q.unlinkFree e) := by
  unfold Pool.unlinkFree
  dsimp only
  rw [(h.alike hR).block_eq, (h.alike hR).nextFree_eq]
  have hcount := h.modifyBlock (blockOf e)
    (fun r => { r with free := (q.block (blockOf e)).free - 1 }) hR
  split_ifs
  · exact hcount
  · exact h.modifyBlock _ _ (h.bridgeFree hcount e)
  · exact h.bridgeFree hcount e

theorem take (h : Writes R) (hR : R p q) (e : Nat) : R (p.take c e) (q.take c e) := by
  have hunlink := h.unlinkFree hR e
  unfold Pool.take
  dsimp only
  rw [(h.alike hunlink).block_eq]
  split_ifs
  · exact hunlink
  · exact h.moveBlock hunlink _ _ _
  · exact h.moveBlock hunlink _ _ _
  · exact hunlink

theorem linkFree (h : Writes R) (hR : R p q) (e : Nat) : R (p.linkFree e) (q.linkFree e) := by
  unfold Pool.linkFree
  dsimp only
  rw [(h.alike hR).block_eq]
  split_ifs
  · exact h.setNode (h.modifyBlock _ _ hR) _ _ _
  · exact h.spliceFree (h.modifyBlock _ _ hR) e _

theorem insertFree (h : Writes R) (hR : R p q) (e : Nat) :
    R (p.insertFree c e) (q.insertFree c e) := by
  have hlink := h.linkFree hR e
  unfold Pool.insertFree
  dsimp only
  rw [(h.alike hlink).block_eq]
  split_ifs
  · exact hlink
  · exact h.moveBlock hlink _ _ _
  · exact h.modifyBlock _ _ (h.moveBlock hlink _ _ _)
  · exact h.modifyBlock _ _ hlink

theorem relaxReject (h : Writes R) (hR : R p q) (b : Nat) :
    R (p.relaxReject b) (q.relaxReject b) := by
  unfold Pool.relaxReject
  dsimp only
  rw [(h.alike hR).block_eq, (h.alike hR).reject_eq]
  split_ifs
  · exact h.modifyBlock _ _ hR
  · exact hR

theorem release (h : Writes R) (hR : R p q) (e : Nat) : R (p.release c e) (q.release c e) :=
  h.modifySlot _ _ (h.relaxReject (h.insertFree hR e) _)

theorem occupy (h : Writes R) (hR : R p q) (e : Nat) (label : UInt8) (parent : Nat) :
    R (p.occupy c e label parent) (q.occupy c e label parent) :=
  h.setNode (h.take hR e) _ _ _

/-! ### Room for children -/

theorem openBlock (h : Writes R) (hR : R p q) : R p.openBlock q.openBlock := by
  unfold Pool.openBlock Pool.threadBlock
  dsimp only
  rw [(h.alike hR).blocksInUse_eq, (h.alike hR).size_eq]
  have hthread := h.threadFree (h.modifyBlock q.blocksInUse (fun _ => { head := q.size }) hR)
    q.size (q.size + (blockSize - 1))
  rw [(h.alike hthread).openHead_eq]
  have hattach := h.attach hthread q.blocksInUse .opened
    (((q.modifyBlock q.blocksInUse fun _ => { head := q.size }).threadFree q.size
      (q.size + (blockSize - 1))).openHead == 0)
  rw [(h.alike hattach).size_eq]
  exact h.log _ (h.extend _ hattach)

theorem learn (h : Writes R) (hR : R p q) (b n : Nat) : R (p.learn c b n) (q.learn c b n) := by
  unfold Pool.learn
  dsimp only
  rw [(h.alike hR).block_eq]
  have hlower := h.lowerReject (q.block b).free.toNat n
    (h.modifyBlock b (fun r => { r with reject := n, trials := r.trials + 1 }) hR)
  split_ifs
  · exact h.moveBlock hlower _ _ _
  · exact hlower

theorem searchOpen (h : Writes R) (labels : List UInt8) (last : Int) (n b : Nat) (hR : R p q) :
    Both R (p.searchOpen c labels last n b) (q.searchOpen c labels last n b) := by
  induction n generalizing p q b with
  | zero => exact .intro hR _
  | succ n ih =>
    unfold Pool.searchOpen
    dsimp only
    rw [(h.alike hR).room?_eq, (h.alike hR).nextBlock_eq]
    split
    · exact .intro (h.modifyBlock _ _ hR) _
    · have hlearn := h.learn (c := c) hR b labels.length
      split_ifs
      · exact .intro hlearn _
      · exact ih _ hlearn

end Writes

namespace Lockstep

variable {c : Config} {R : Pool → Pool → Prop} {p q : Pool}

/-- A property that all writes keep. -/
theorem of_kept {P : Pool → Prop} (hslot : ∀ p i f, P p → P (p.modifySlot i f))
    (hblock : ∀ p b f, P p → P (p.modifyBlock b f)) (hhead : ∀ p r b, P p → P (p.setHead r b))
    (hreject : ∀ p k n, P p → P (p.lowerReject k n))
    (hsize : ∀ (p : Pool) n, P p → P { p with size := n }) (hlog : ∀ p x, P p → P (p.log x))
    (hgrow : ∀ p, P p → P (p.grow c)) : Lockstep c fun p q => p = q ∧ P p where
  toWrites := .of_kept hslot hblock hhead hreject hsize hlog
  grow h := ⟨congrArg _ h.1, hgrow _ h.2⟩

theorem addBlock (h : Lockstep c R) (hR : R p q) : Both R (p.addBlock c) (q.addBlock c) := by
  unfold Pool.addBlock
  dsimp only
  rw [(h.alike hR).size_eq, (h.alike hR).capacity_eq]
  refine ⟨h.openBlock ?_, rfl⟩
  split_ifs
  · exact h.grow hR
  · exact hR

theorem placeOne (h : Lockstep c R) (hR : R p q) : Both R (p.placeOne c) (q.placeOne c) := by
  unfold Pool.placeOne
  rw [(h.alike hR).closedHead_eq, (h.alike hR).openHead_eq, (h.alike hR).block_eq,
    (h.alike hR).block_eq]
  split_ifs
  · exact .intro hR _
  · exact .intro hR _
  · exact h.addBlock hR

theorem placeFor (h : Lockstep c R) (hR : R p q) (labels : List UInt8) :
    Both R (p.placeFor c labels) (q.placeFor c labels) := by
  unfold Pool.placeFor
  rw [(h.alike hR).openHead_eq, (h.alike hR).block_eq, (h.alike hR).visitBound_eq]
  split_ifs
  · exact h.addBlock hR
  · obtain ⟨hsearch, hfound⟩ := h.searchOpen labels (q.block q.openHead).prev q.visitBound
      q.openHead hR
    revert hsearch hfound
    generalize p.searchOpen c labels _ _ _ = x
    generalize q.searchOpen c labels _ _ _ = y
    obtain ⟨p, found⟩ := x
    obtain ⟨q, found'⟩ := y
    rintro hsearch rfl
    cases found with
    | some e => exact .intro hsearch _
    | none => exact h.addBlock (h.log _ hsearch)

end Lockstep

/-- No write but growth moves records, or makes the arrays larger. -/
theorem writes_backing (P : Backing → Nat → Prop) :
    Writes fun p q => p = q ∧ P p.backing p.capacity := by
  refine .of_kept (fun p i f h => ?_) (fun _ _ _ h => h) (fun p r b h => ?_) (fun p k n h => ?_)
    (fun _ _ h => h) fun _ _ h => h
  · rw [capacity_modifySlot]
    exact h
  · cases r <;> exact h
  · unfold lowerReject
    split_ifs <;> exact h

end Pool

end DoubleArrayTrie
