import Mathlib.Data.List.Iterate
import Mathlib.Tactic.SplitIfs
import DoubleArrayTrie.Pool.Ring
import DoubleArrayTrie.Pool.Growth
import DoubleArrayTrie.Proofs.Image.Decoding

/-!
# Programs over a pool

The functions of a pool are total: a record that is not there is read as a fresh one, and a write to
it does nothing. A *program* says in single accesses what is read and written, and at which index. It
*faults* where an index is out of range, where a number does not fit into its field, or where it comes
to a state that it takes to be impossible. A program that runs without a fault has done nothing of
the kind.

A program does not know how the arrays grow, and has no access to the capacity but to ask for more.

Only what is in use is in range, with one exception: while a block is opened its own records are so as
well, since they are written before the size is raised. This is told by a node of its own (`Opening`).

* `Access`: the accesses, with `Access.Allowed` for what each of them requires, and `Access.Opens` for
  those that may be made while a block is opened.
* `Program.run`: the pool and the result of a program, if it does not fault.
* `Program.run_kept`: what every access keeps a program keeps.
* `Local.run_during`: what is done to a block in use can be done to one that is opened.
-/

namespace DoubleArrayTrie

/-- What programs know of a configuration. -/
structure Rules where
  encoding : Encoding
  ordered : Bool
  maxTrial : Int

/-- A configuration but for its growth. -/
def Config.rules (c : Config) : Rules := ⟨c.encoding, c.ordered, c.maxTrial⟩

@[simp] theorem Config.encoding_rules (c : Config) : c.rules.encoding = c.encoding := rfl

instance (n : Nat) (i : Int) : Decidable (Integer.Fits n i) :=
  inferInstanceAs (Decidable (_ ∧ _))

/-! ### Writes -/

/-- A word has 32 bits, and so has the number whose negative is the offset that it stands for. -/
def Encoding.Word : Encoding → Int → Prop
  | standard, raw => Integer.Fits 4 raw
  | reduced, raw => Integer.Fits 4 raw ∧ Integer.Fits 4 (raw + 1)

instance : (e : Encoding) → (raw : Int) → Decidable (e.Word raw)
  | .standard, raw => inferInstanceAs (Decidable (Integer.Fits 4 raw))
  | .reduced, raw => inferInstanceAs (Decidable (Integer.Fits 4 raw ∧ Integer.Fits 4 (raw + 1)))

/-- A write to a slot. -/
inductive SlotWrite where
  | base (raw : Int)
  | check (parent : Int)
  | node (raw parent : Int)
  | sibling (label : UInt8)
  | child (label : UInt8)
  | clear

namespace SlotWrite

def apply : SlotWrite → Slot → Slot
  | base raw, s => { s with base := raw }
  | check parent, s => { s with check := parent }
  | node raw parent, s => { s with base := raw, check := parent }
  | sibling label, s => { s with sibling := label }
  | child label, s => { s with child := label }
  | clear, s => { s with sibling := 0, child := 0 }

/-- What is written fits into its field. -/
def Fits (e : Encoding) : SlotWrite → Prop
  | base raw => e.Word raw
  | check parent => Integer.Fits 4 parent
  | node raw parent => e.Word raw ∧ Integer.Fits 4 parent
  | sibling _ | child _ | clear => True

instance (e : Encoding) : (w : SlotWrite) → Decidable (w.Fits e)
  | base raw => inferInstanceAs (Decidable (e.Word raw))
  | check parent => inferInstanceAs (Decidable (Integer.Fits 4 parent))
  | node raw parent => inferInstanceAs (Decidable (e.Word raw ∧ Integer.Fits 4 parent))
  | sibling _ | child _ | clear => inferInstanceAs (Decidable True)

end SlotWrite

/-- A write to a block. -/
inductive BlockWrite where
  | prev (b : Nat)
  | next (b : Nat)
  | free (n : Int)
  | reject (n : Int)
  | trials (n : Int)
  | head (e : Nat)
  /-- All fields as for a block that was never used. -/
  | fresh

namespace BlockWrite

def apply : BlockWrite → Block → Block
  | prev b, r => { r with prev := b }
  | next b, r => { r with next := b }
  | free n, r => { r with free := n }
  | reject n, r => { r with reject := n }
  | trials n, r => { r with trials := n }
  | head e, r => { r with head := e }
  | fresh, _ => {}

/-- The numbers of free slots and of children have 16 bits, the others 32. -/
def Fits : BlockWrite → Prop
  | prev b | next b => Integer.Fits 4 b
  | free n | reject n => Integer.Fits 2 n
  | trials n => Integer.Fits 4 n
  | head e => Integer.Fits 4 e
  | fresh => True

instance : (w : BlockWrite) → Decidable w.Fits
  | prev b | next b => inferInstanceAs (Decidable (Integer.Fits 4 b))
  | free n | reject n => inferInstanceAs (Decidable (Integer.Fits 2 n))
  | trials n => inferInstanceAs (Decidable (Integer.Fits 4 n))
  | head e => inferInstanceAs (Decidable (Integer.Fits 4 e))
  | fresh => inferInstanceAs (Decidable True)

end BlockWrite

/-! ### Accesses -/

namespace Pool

/-- Block `b` is found on ring `r` within as many steps as there are blocks. -/
def Member (p : Pool) (r : Ring) (b : Nat) : Prop :=
  p.head r ≠ 0 ∧ b ∈ List.iterate p.nextBlock (p.head r) p.blocksInUse

/-- The pool with one more block in use. -/
def extend (p : Pool) : Pool := { p with size := p.size + blockSize }

theorem blocksInUse_extend (p : Pool) : p.extend.blocksInUse = p.blocksInUse + 1 :=
  Nat.add_div_right _ (by decide)

theorem head_extend (p : Pool) (r : Ring) : p.extend.head r = p.head r := by
  cases r <;> rfl

theorem extend_injective : Function.Injective extend := by
  rintro ⟨⟩ ⟨⟩ h
  simpa [extend] using h

instance (p : Pool) (r : Ring) (b : Nat) : Decidable (p.Member r b) :=
  inferInstanceAs (Decidable (_ ∧ _))

end Pool

/-- The capacity before and after a growth, where the event is one. -/
def Event.growth? : Event → Option (Nat × Nat)
  | grow n m => some (n, m)
  | unmap .. | addBlock _ | exhausted _ | saved _ | loaded .. => none

/-- A single access to a pool. -/
inductive Access where
  | slot (i : Nat)
  | block (b : Nat)
  /-- The bound for a number of free slots. -/
  | bound (n : Nat)
  | head (r : Ring)
  | size
  | writeSlot (i : Nat) (w : SlotWrite)
  | writeBlock (b : Nat) (w : BlockWrite)
  | writeBound (n : Nat) (x : Int)
  | writeHead (r : Ring) (b : Nat)
  /-- Makes sure that the arrays have room for one more block. Arrays that are full grow: fresh records
  are written from the old capacity up to the new one, and to no other place. -/
  | reserve
  | log (event : Event)
  /-- Checks that a block is on a ring. -/
  | member (r : Ring) (b : Nat)

namespace Access

/-- What an access answers. -/
def Reply : Access → Type
  | slot _ => Slot
  | block _ => Block
  | bound _ => Int
  | head _ | size => Nat
  | _ => Unit

/-- The largest number of slots. -/
def maxCapacity : Nat := 2147483648

/-- Indices are in range and what is written fits. A growth is reported by the pool itself. -/
def Allowed (c : Config) (p : Pool) : Access → Prop
  | slot i => i < p.size
  | block b => b < p.blocksInUse
  | bound n => n < rejectCount
  | head _ | size => True
  | log event => event.growth? = none
  | writeSlot i w => i < p.size ∧ w.Fits c.encoding
  | writeBlock b w => b < p.blocksInUse ∧ w.Fits
  | writeBound n x => n < rejectCount ∧ Integer.Fits 2 x
  | writeHead _ b => b < p.blocksInUse
  | reserve => p.size = p.capacity → p.capacity + c.growth.step p.capacity ≤ maxCapacity
  | member r b => p.Member r b

instance (c : Config) (p : Pool) : (x : Access) → Decidable (x.Allowed c p)
  | slot i => inferInstanceAs (Decidable (i < p.size))
  | block b | writeHead _ b => inferInstanceAs (Decidable (b < p.blocksInUse))
  | bound n => inferInstanceAs (Decidable (n < rejectCount))
  | head _ | size => inferInstanceAs (Decidable True)
  | log event => inferInstanceAs (Decidable (event.growth? = none))
  | writeSlot i w => inferInstanceAs (Decidable (i < p.size ∧ w.Fits c.encoding))
  | writeBlock b w => inferInstanceAs (Decidable (b < p.blocksInUse ∧ w.Fits))
  | writeBound n x => inferInstanceAs (Decidable (n < rejectCount ∧ Integer.Fits 2 x))
  | reserve => inferInstanceAs
      (Decidable (p.size = p.capacity → p.capacity + c.growth.step p.capacity ≤ maxCapacity))
  | member r b => inferInstanceAs (Decidable (p.Member r b))

/-- While the next block is opened its slots and its record are in range too, although they are not in
use before that is done. Nothing but records and heads is of concern then. -/
def Opens (c : Config) (p : Pool) : Access → Prop
  | slot i => i < p.size + blockSize
  | block b | writeHead _ b => b ≤ p.blocksInUse
  | head _ => True
  | writeSlot i w => i < p.size + blockSize ∧ w.Fits c.encoding
  | writeBlock b w => b ≤ p.blocksInUse ∧ w.Fits
  | bound _ | size | writeBound .. | reserve | log _ | member .. => False

instance (c : Config) (p : Pool) : (x : Access) → Decidable (x.Opens c p)
  | slot i => inferInstanceAs (Decidable (i < p.size + blockSize))
  | block b | writeHead _ b => inferInstanceAs (Decidable (b ≤ p.blocksInUse))
  | head _ => inferInstanceAs (Decidable True)
  | writeSlot i w => inferInstanceAs (Decidable (i < p.size + blockSize ∧ w.Fits c.encoding))
  | writeBlock b w => inferInstanceAs (Decidable (b ≤ p.blocksInUse ∧ w.Fits))
  | bound _ | size | writeBound .. | reserve | log _ | member .. =>
    inferInstanceAs (Decidable False)

def reply (p : Pool) : (x : Access) → x.Reply
  | slot i => p.slot i
  | block b => p.block b
  | bound n => p.reject n
  | head r => p.head r
  | size => p.size
  | writeSlot .. | writeBlock .. | writeBound .. | writeHead .. | reserve | log _ | member .. => ()

/-- The pool after an access. -/
def effect (c : Config) (p : Pool) : Access → Pool
  | writeSlot i w => p.modifySlot i w.apply
  | writeBlock b w => p.modifyBlock b w.apply
  | writeBound n x => p.setReject n x
  | writeHead r b => p.setHead r b
  | reserve => if p.size = p.capacity then p.grow c else p
  | log event => p.log event
  | slot _ | block _ | bound _ | head _ | size | member .. => p

/-- The access is to the record of a slot or a block, or to a head. -/
def Local : Access → Prop
  | slot _ | block _ | head _ | writeSlot .. | writeBlock .. | writeHead .. => True
  | bound _ | size | writeBound .. | reserve | log _ | member .. => False

variable {c : Config} {p : Pool} {x : Access}

theorem opens_iff : x.Opens c p ↔ x.Local ∧ x.Allowed c p.extend := by
  cases x with
  | slot i => exact (Iff.of_eq (true_and _)).symm
  | block b | writeHead r b =>
    show b ≤ p.blocksInUse ↔ True ∧ b < p.extend.blocksInUse
    rw [Pool.blocksInUse_extend, true_and, Nat.lt_succ_iff]
  | writeBlock b w =>
    show b ≤ p.blocksInUse ∧ w.Fits ↔ True ∧ b < p.extend.blocksInUse ∧ w.Fits
    rw [Pool.blocksInUse_extend, true_and, Nat.lt_succ_iff]
  | head r => exact iff_of_true trivial ⟨trivial, trivial⟩
  | writeSlot i w => exact (Iff.of_eq (true_and _)).symm
  | bound | size | writeBound | reserve | log | member => exact iff_of_false id fun h => h.1

/-- The size is of no matter for such an access. -/
theorem Local.reply_extend (h : x.Local) (p : Pool) : x.reply p.extend = x.reply p := by
  cases x with
  | head r => exact Pool.head_extend p r
  | slot | block | writeSlot | writeBlock | writeHead => rfl
  | bound | size | writeBound | reserve | log | member => exact h.elim

theorem Local.effect_extend (h : x.Local) (c : Config) (p : Pool) :
    x.effect c p.extend = (x.effect c p).extend := by
  cases x with
  | writeHead r b => cases r <;> rfl
  | slot | block | head | writeSlot | writeBlock => rfl
  | bound | size | writeBound | reserve | log | member => exact h.elim

end Access

/-! ### Programs -/

/-- What is done to a block before it is in use. -/
inductive Opening where
  | done
  | access (x : Access) (next : x.Reply → Opening)
  | fault

/-- A series of accesses, where each may depend on the replies so far. -/
inductive Program (α : Type) where
  | done (a : α)
  | access (x : Access) (next : x.Reply → Program α)
  /-- Opens the next block. The size is raised in the end, after what is done to the block. -/
  | opening (body : Opening) (next : Program α)
  /-- The program comes to a state that it takes to be impossible. -/
  | fault

/-- The pool after what is done to a block that is opened, if that does not fault. -/
def Opening.run (c : Config) : Opening → Pool → Option Pool
  | done, p => some p
  | access x next, p => if x.Opens c p then run c (next (x.reply p)) (x.effect c p) else none
  | fault, _ => none

/-- What every access keeps is kept while a block is opened, if the block is counted in. -/
theorem Opening.run_kept {c : Config} {I : Pool → Prop}
    (haccess : ∀ {p : Pool} {x : Access}, I p → x.Allowed c p → I (x.effect c p)) {p q : Pool}
    (body : Opening) (h : body.run c p = some q) (hp : I p.extend) : I q.extend := by
  induction body generalizing p with
  | done =>
    obtain rfl := Option.some.inj h
    exact hp
  | access x next ih =>
    rw [run] at h
    split_ifs at h with hopens
    obtain ⟨hlocal, hallowed⟩ := Access.opens_iff.mp hopens
    have hkept := haccess hp hallowed
    rw [hlocal.effect_extend] at hkept
    exact ih _ h hkept
  | fault => simp [run] at h

namespace Program

variable {α β : Type}

def bind : Program α → (α → Program β) → Program β
  | done a, f => f a
  | access x next, f => access x fun reply => (next reply).bind f
  | opening body next, f => opening body (next.bind f)
  | fault, _ => fault

instance : Monad Program where
  pure := done
  bind := bind

/-- The pool after a program and its result, if it does not fault. -/
def run (c : Config) : Program α → Pool → Option (Pool × α)
  | done a, p => some (p, a)
  | access x next, p =>
      if x.Allowed c p then run c (next (x.reply p)) (x.effect c p) else none
  | opening body next, p =>
      if p.size + blockSize ≤ p.capacity then
        match body.run c p with
        | some q => run c next q.extend
        | none => none
      else none
  | fault, _ => none

variable {c : Config} {p q : Pool} {x : Program α} {f : α → Program β} {a : α}

theorem run_bind (c : Config) (p : Pool) (x : Program α) (f : α → Program β) :
    (x >>= f).run c p = (x.run c p).bind fun (q, a) => (f a).run c q := by
  induction x generalizing p with
  | done a => rfl
  | access x next ih =>
    show ite _ _ _ = Option.bind (ite _ _ _) _
    split_ifs
    · exact ih _ _
    · rfl
  | opening body next ih =>
    show ite _ _ _ = Option.bind (ite _ _ _) _
    split_ifs
    · cases body.run c p with
      | some q => exact ih q.extend
      | none => rfl
    · rfl
  | fault => rfl

/-- What comes after a program that does not fault. -/
theorem run_bind_of (h : x.run c p = some (q, a)) : (x >>= f).run c p = (f a).run c q := by
  rw [run_bind, h]
  rfl

/-! ### As far as the arrays may grow -/

/-- The program gives this pool and result, unless the arrays would get too large: then it faults. -/
def Gives (c : Config) (p : Pool) (x : Program α) (y : Pool × α) : Prop :=
  x.run c p = if y.1.capacity ≤ Access.maxCapacity then some y else none

section Gives

variable {y : Pool × α} {z : Pool × β}

theorem gives_of_run (h : x.run c p = some y) (hcap : y.1.capacity ≤ Access.maxCapacity) :
    x.Gives c p y := h.trans (if_pos hcap).symm

theorem gives_of_fault (h : x.run c p = none) (hcap : Access.maxCapacity < y.1.capacity) :
    x.Gives c p y := h.trans (if_neg (Nat.not_le.mpr hcap)).symm

theorem Gives.run (h : x.Gives c p y) (hcap : y.1.capacity ≤ Access.maxCapacity) :
    x.run c p = some y := h.trans (if_pos hcap)

theorem Gives.fault (h : x.Gives c p y) (hcap : Access.maxCapacity < y.1.capacity) :
    x.run c p = none := h.trans (if_neg (Nat.not_le.mpr hcap))

/-- A result says that the arrays are not too large. -/
theorem Gives.of_run {y' : Pool × α} (h : x.Gives c p y) (hx : x.run c p = some y') :
    y = y' ∧ y.1.capacity ≤ Access.maxCapacity := by
  rw [Gives, hx] at h
  split_ifs at h with hcap
  exact ⟨(Option.some.inj h).symm, hcap⟩

/-- What comes after a program that does not fault. -/
theorem gives_bind_of (h : x.run c p = some (q, a)) (hf : (f a).Gives c q z) : (x >>= f).Gives c p z :=
  (run_bind_of h).trans hf

/-- **One program after another**, where the second leaves the arrays at least as large. -/
theorem Gives.bind (h : x.Gives c p y) (hle : y.1.capacity ≤ z.1.capacity)
    (hf : x.run c p = some y → (f y.2).Gives c y.1 z) : (x >>= f).Gives c p z := by
  by_cases hcap : y.1.capacity ≤ Access.maxCapacity
  · exact (run_bind_of (h.run hcap)).trans (hf (h.run hcap))
  · rw [not_le] at hcap
    refine gives_of_fault ?_ (hcap.trans_le hle)
    rw [run_bind, h.fault hcap]
    rfl

/-- Only the first program may make the arrays grow. -/
theorem Gives.bind_run (h : x.Gives c p y) (heq : z.1.capacity = y.1.capacity)
    (hf : x.run c p = some y → (f y.2).run c y.1 = some z) : (x >>= f).Gives c p z :=
  h.bind heq.ge fun hrun => gives_of_run (hf hrun) (heq.trans_le (h.of_run hrun).2)

end Gives

/-! ### What is kept -/

/-- What every access keeps, and a pool with one more block has as well, a program keeps. -/
theorem run_kept {I : Pool → Prop}
    (haccess : ∀ {p : Pool} {x : Access}, I p → x.Allowed c p → I (x.effect c p))
    (hextend : ∀ {p : Pool}, I p → p.size + blockSize ≤ p.capacity → I p.extend)
    (hx : x.run c p = some (q, a)) (hp : I p) : I q := by
  induction x generalizing p with
  | done a =>
    obtain ⟨rfl, -⟩ := Prod.mk.inj (Option.some.inj hx)
    exact hp
  | access x next ih =>
    rw [run] at hx
    split_ifs at hx with hallowed
    exact ih _ hx (haccess hp hallowed)
  | opening body next ih =>
    rw [run] at hx
    split_ifs at hx with hroom
    cases hbody : body.run c p with
    | none => simp [hbody] at hx
    | some r =>
      rw [hbody] at hx
      exact ih hx (body.run_kept haccess hbody (hextend hp hroom))
  | fault => simp [run] at hx

/-! ### Single accesses -/

def slot (i : Nat) : Program Slot := access (.slot i) pure

def block (b : Nat) : Program Block := access (.block b) pure

def bound (n : Nat) : Program Int := access (.bound n) pure

def head (r : Ring) : Program Nat := access (.head r) pure

def size : Program Nat := access .size pure

def writeSlot (i : Nat) (w : SlotWrite) : Program Unit := access (.writeSlot i w) pure

def writeBlock (b : Nat) (w : BlockWrite) : Program Unit := access (.writeBlock b w) pure

def writeBound (n : Nat) (x : Int) : Program Unit := access (.writeBound n x) pure

def writeHead (r : Ring) (b : Nat) : Program Unit := access (.writeHead r b) pure

def reserve : Program Unit := access .reserve pure

def log (event : Event) : Program Unit := access (.log event) pure

def member (r : Ring) (b : Nat) : Program Unit := access (.member r b) pure

theorem run_access {x : Access} (h : x.Allowed c p) :
    (access x pure).run c p = some (x.effect c p, x.reply p) := if_pos h

theorem run_slot {i : Nat} (h : i < p.size) : (slot i).run c p = some (p, p.slot i) := run_access h

theorem run_block {b : Nat} (h : b < p.blocksInUse) : (block b).run c p = some (p, p.block b) :=
  run_access h

theorem run_bound {n : Nat} (h : n < rejectCount) : (bound n).run c p = some (p, p.reject n) :=
  run_access h

theorem run_head (r : Ring) : (head r).run c p = some (p, p.head r) := run_access trivial

theorem run_size : size.run c p = some (p, p.size) := run_access trivial

theorem run_clear {i : Nat} (h : i < p.size) : (writeSlot i .clear).run c p =
    some (p.modifySlot i fun s => { s with sibling := 0, child := 0 }, ()) := run_access ⟨h, trivial⟩

theorem run_setBase {i : Nat} {raw : Int} (h : i < p.size) (hraw : c.encoding.Word raw) :
    (writeSlot i (.base raw)).run c p = some (p.setBase i raw, ()) := run_access ⟨h, hraw⟩

theorem run_setCheck {i : Nat} {parent : Int} (h : i < p.size) (hparent : Integer.Fits 4 parent) :
    (writeSlot i (.check parent)).run c p = some (p.setCheck i parent, ()) := run_access ⟨h, hparent⟩

theorem run_setNode {i : Nat} {raw parent : Int} (h : i < p.size) (hraw : c.encoding.Word raw)
    (hparent : Integer.Fits 4 parent) :
    (writeSlot i (.node raw parent)).run c p = some (p.setNode i raw parent, ()) :=
  run_access ⟨h, hraw, hparent⟩

theorem run_setSibling {i : Nat} (h : i < p.size) (label : UInt8) :
    (writeSlot i (.sibling label)).run c p = some (p.setSibling i label, ()) := run_access ⟨h, trivial⟩

theorem run_setChild {i : Nat} (h : i < p.size) (label : UInt8) :
    (writeSlot i (.child label)).run c p = some (p.setChild i label, ()) := run_access ⟨h, trivial⟩

theorem run_writeBlock {b : Nat} {w : BlockWrite} (h : b < p.blocksInUse) (hw : w.Fits) :
    (writeBlock b w).run c p = some (p.modifyBlock b w.apply, ()) := run_access ⟨h, hw⟩

theorem run_writeBound {n : Nat} {x : Int} (h : n < rejectCount) (hx : Integer.Fits 2 x) :
    (writeBound n x).run c p = some (p.setReject n x, ()) := run_access ⟨h, hx⟩

theorem run_writeHead {b : Nat} (h : b < p.blocksInUse) (r : Ring) :
    (writeHead r b).run c p = some (p.setHead r b, ()) := run_access h

theorem run_reserve
    (h : p.size = p.capacity → p.capacity + c.growth.step p.capacity ≤ Access.maxCapacity) :
    reserve.run c p = some (if p.size = p.capacity then p.grow c else p, ()) := run_access h

/-- Arrays that are full and must not grow. -/
theorem run_reserve_of_fault
    (h : p.size = p.capacity ∧ Access.maxCapacity < p.capacity + c.growth.step p.capacity) :
    reserve.run c p = none := if_neg fun hallowed => (hallowed h.1).not_gt h.2

theorem run_log {event : Event} (h : event.growth? = none) :
    (log event).run c p = some (p.log event, ()) := run_access h

theorem run_member {r : Ring} {b : Nat} (h : p.Member r b) : (member r b).run c p = some (p, ()) :=
  run_access h

/-! ### Opening a block -/

/-- What is done to a block by a program, and then by what follows on its result. -/
def during : Program α → (α → Opening) → Opening
  | done a, f => f a
  | access x next, f => .access x fun reply => (next reply).during f
  | opening .., _ | fault, _ => .fault

/-- The program is concerned with nothing but records and heads. -/
inductive Local : Program α → Prop
  | done (a : α) : Local (done a)
  | access {x : Access} {next : x.Reply → Program α} (hx : x.Local)
      (hnext : ∀ reply, Local (next reply)) : Local (access x next)
  | fault : Local fault

theorem Local.bind (hx : x.Local) (hf : ∀ a, (f a).Local) : (x >>= f).Local := by
  induction hx with
  | done a => exact hf a
  | access hx _ ih => exact .access hx ih
  | fault => exact .fault

/-- **What is done to a block in use** can be done to one that is opened. -/
theorem Local.run_during (hx : x.Local) (h : x.run c p.extend = some (q.extend, a))
    (f : α → Opening) : (x.during f).run c p = (f a).run c q := by
  induction hx generalizing p with
  | done b =>
    obtain ⟨hp, rfl⟩ := Prod.mk.inj (Option.some.inj h)
    rw [Pool.extend_injective hp]
    rfl
  | @access x next hx _ ih =>
    rw [run] at h
    split_ifs at h with hallowed
    rw [hx.effect_extend, hx.reply_extend] at h
    rw [during, Opening.run, if_pos (Access.opens_iff.mpr ⟨hx, hallowed⟩)]
    exact ih _ h
  | fault => simp [run] at h

/-! ### Checks of numbers -/

/-- Goes on only if something is the case. -/
def require (P : Prop) [Decidable P] : Program Unit := if P then pure () else fault

/-- A number as an index. -/
def index (i : Int) : Program Nat := if 0 ≤ i then pure i.toNat else fault

/-- The negative of a number, which must have 32 bits. -/
def negate (i : Int) : Program Int := if Integer.Fits 4 (-i) then pure (-i) else fault

theorem run_require {P : Prop} [Decidable P] (h : P) : (require P).run c p = some (p, ()) := by
  rw [require, if_pos h]
  rfl

theorem run_index {i : Int} (h : 0 ≤ i) : (index i).run c p = some (p, i.toNat) := by
  rw [index, if_pos h]
  rfl

theorem run_negate {i : Int} (h : Integer.Fits 4 (-i)) : (negate i).run c p = some (p, -i) := by
  rw [negate, if_pos h]
  rfl

end Program

end DoubleArrayTrie
