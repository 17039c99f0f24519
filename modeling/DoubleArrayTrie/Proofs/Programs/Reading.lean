import DoubleArrayTrie.Proofs.Trie.Reading
import DoubleArrayTrie.Proofs.Programs.Place

/-!
# Programs that read a trie

What a word stands for depends on the role of its slot: an offset, a value, or a link between free
slots. A program takes words for offsets only where they are, so every slot that it comes to is in
range.

* `Pool.Ready`: the arrays are not too large, and all slots hold words. No program changes this.
* `Links.run_chainFrom`: a chain is followed to its end.
* `Lays.run_walk`, `Lays.run_valueAt`, `Lays.run_find`: keys are looked up.
-/

namespace DoubleArrayTrie

/-! ### The programs -/

namespace Program

/-- The offset that a word stands for. -/
def offset (e : Encoding) (raw : Int) : Program Int := do
  require (e.Word raw)
  pure (e.offset raw)

def offset? (e : Encoding) (raw : Int) : Program (Option Nat) := do
  let k ← offset e raw
  if k < 0 then pure none else pure (some k.toNat)

def offsetOf (e : Encoding) (n : Nat) : Program Nat := do
  let s ← slot n
  let k ← offset e s.base
  index k

/-- Faults unless the chain has at most so many labels. -/
def chainFrom (k : Nat) : Nat → UInt8 → Program (List UInt8)
  | 0, _ => fault
  | n + 1, label => do
      let s ← slot (k ^^^ label.toNat)
      if s.sibling = 0 then pure [label]
      else do
        let labels ← chainFrom k n s.sibling
        pure (label :: labels)

def chain (n k : Nat) : Program (List UInt8) := do
  let s ← slot n
  chainFrom k maxChildren s.child

def child? (e : Encoding) (n : Nat) (label : UInt8) : Program (Option Nat) := do
  let s ← slot n
  let k? ← offset? e s.base
  match k? with
  | none => pure none
  | some k =>
      if label = 0 then pure none
      else do
        let t ← slot (k ^^^ label.toNat)
        if t.check = n then pure (some (k ^^^ label.toNat)) else pure none

def walk (e : Encoding) (n : Nat) : Key → Program (Option Nat)
  | [] => pure (some n)
  | label :: labels => do
      let m? ← child? e n label
      match m? with
      | none => pure none
      | some m => walk e m labels

def valueAt (e : Encoding) (n : Nat) : Program Lookup := do
  let s ← slot n
  if e.holdsValue s.base then
    if s.base = Encoding.unset then pure .noValue else pure (.found (Int32.ofInt s.base))
  else do
    let k? ← offset? e s.base
    match k? with
    | none => pure .noValue
    | some k => do
        let t ← slot k
        if t.check = n then pure (.found (Int32.ofInt t.base)) else pure .noValue

def find (e : Encoding) (key : Key) : Program Lookup := do
  let n? ← walk e 0 key
  match n? with
  | none => pure .absent
  | some n => valueAt e n

end Program

namespace Pool

variable {c : Config} {p q : Pool} {T : Outline} {off : Trail → Nat} {t : Trail} {k n : Nat}

/-! ### What no program changes -/

/-- The arrays are not too large, and all slots hold words. -/
structure Ready (c : Config) (p : Pool) : Prop where
  capacity_le : p.capacity ≤ Access.maxCapacity
  word : ∀ i, c.encoding.Word (p.slot i).base

theorem Ready.writeSlot (h : p.Ready c) (i : Nat) {w : SlotWrite} (hw : w.Fits c.encoding) :
    (p.modifySlot i w.apply).Ready c where
  capacity_le := by
    rw [capacity_modifySlot]
    exact h.capacity_le
  word j := by
    rw [slot_modifySlot]
    split_ifs
    · cases w with
      | base raw => exact hw
      | node raw parent => exact hw.1
      | check | sibling | child | clear => exact h.word j
    · exact h.word j

theorem Ready.access (h : p.Ready c) {x : Access} (hx : x.Allowed c p) : (x.effect c p).Ready c := by
  cases x with
  | writeSlot i w => exact h.writeSlot i hx.2
  | writeHead r b => cases r <;> exact ⟨h.capacity_le, h.word⟩
  | reserve =>
    unfold Access.effect
    dsimp only
    split_ifs with hfull
    · refine ⟨?_, fun i => ?_⟩
      · rw [capacity_grow]
        exact hx hfull
      · rw [slot_grow]
        exact h.word i
    · exact h
  | slot | block | bound | head | size | writeBlock | writeBound | log | member =>
    exact ⟨h.capacity_le, h.word⟩

/-- **A program that does not fault** leaves arrays that are not too large, and words in all slots. -/
theorem Ready.run {α : Type} {x : Program α} {a : α} (h : p.Ready c)
    (hx : x.run c p = some (q, a)) : q.Ready c :=
  Program.run_kept (fun h hallowed => h.access hallowed) (fun h _ => ⟨h.capacity_le, h.word⟩) hx h

theorem Ready.size_le (h : p.Ready c) (hp : p.WellKept c) : p.size ≤ Access.maxCapacity :=
  hp.size_le.trans h.capacity_le

/-! ### Offsets -/

theorem run_offset {e : Encoding} {raw : Int} (h : e.Word raw) :
    (Program.offset e raw).run c p = some (p, e.offset raw) := by
  unfold Program.offset
  rw [Program.run_bind_of (Program.run_require h)]
  rfl

theorem run_offset? {e : Encoding} {raw : Int} (h : e.Word raw) :
    (Program.offset? e raw).run c p = some (p, e.offset? raw) := by
  unfold Program.offset? Encoding.offset?
  rw [Program.run_bind_of (run_offset h)]
  split_ifs <;> rfl

theorem Ready.run_offsetOf (h : p.Ready c) (hn : n < p.size)
    (hk : 0 ≤ c.encoding.offset (p.slot n).base) :
    (Program.offsetOf c.encoding n).run c p = some (p, p.offsetOf c n) := by
  unfold Program.offsetOf
  rw [Program.run_bind_of (Program.run_slot hn), Program.run_bind_of (run_offset (h.word n))]
  exact Program.run_index hk

/-! ### Chains -/

/-- **A chain is followed to its end.** -/
theorem Links.run_chainFrom {l : UInt8} {ls : List UInt8} (h : p.Links k (l :: ls))
    (hls : IsLabels (l :: ls)) (hk : ∀ x : UInt8, k ^^^ x.toNat < p.size)
    (hn : (l :: ls).length ≤ n) : (Program.chainFrom k n l).run c p = some (p, l :: ls) := by
  induction ls generalizing l n with
  | nil =>
    obtain ⟨n, rfl⟩ := Nat.exists_eq_succ_of_ne_zero (by simpa using Nat.ne_of_gt hn)
    unfold Program.chainFrom
    rw [Program.run_bind_of (Program.run_slot (hk l)), h.sibling_head]
    rfl
  | cons m ls ih =>
    obtain ⟨n, rfl⟩ := Nat.exists_eq_succ_of_ne_zero (Nat.ne_of_gt (Nat.zero_lt_of_lt hn))
    have hm : m ≠ 0 := fun h0 => hls.tail (by simp [h0])
    unfold Program.chainFrom
    rw [Program.run_bind_of (Program.run_slot (hk l)), h.sibling_head, List.headD_cons, if_neg hm,
      Program.run_bind_of (ih (h.of_cons hls) hls.of_cons (by simpa using hn))]
    rfl

/-- The labels of a chain that starts with a node. -/
theorem Links.run_chain {ls : List UInt8} (h : p.Links k ls) (hls : IsLabels ls) (hne : ls ≠ [])
    (hk : ∀ x : UInt8, k ^^^ x.toNat < p.size) (hn : n < p.size)
    (hchild : (p.slot n).child = ls.headD 0) :
    (Program.chain n k).run c p = some (p, p.chain n k) := by
  obtain ⟨l, ls, rfl⟩ := List.exists_cons_of_ne_nil hne
  unfold Program.chain Pool.chain
  rw [Program.run_bind_of (Program.run_slot hn), hchild, List.headD_cons,
    chainFrom_eq h hls hls.length_le]
  exact h.run_chainFrom hls hk hls.length_le

/-! ### Looking up keys -/

namespace Lays

/-- The slots of the children of a node are in range. -/
theorem xor_lt (h : p.Lays c T off) (ht : T.Mem t) (hk : t = [] ∨ T.kids t ≠ []) (x : UInt8) :
    off t ^^^ x.toNat < p.size := h.draws.kept.xor_lt x (h.off_lt_size ht hk)

variable (h : p.Lays c T off) (hready : p.Ready c)
include h hready

theorem run_offsetOf (ht : T.Mem t) (hk : t = [] ∨ T.kids t ≠ []) :
    (Program.offsetOf c.encoding (locate off t)).run c p = some (p, off t) := by
  rw [hready.run_offsetOf (h.draws.lt_size ht), h.offsetOf_eq ht hk]
  rw [h.base_of_kids ht hk, Encoding.offset_ofOffset]
  exact Int.natCast_nonneg _

theorem run_child? (ht : T.Mem t) (h0 : 0 ∉ t) (x : UInt8) :
    (Program.child? c.encoding (locate off t) x).run c p =
      some (p, p.child? c (locate off t) x) := by
  unfold Program.child? Pool.child?
  rw [Program.run_bind_of (Program.run_slot (h.draws.lt_size ht)),
    Program.run_bind_of (run_offset? (hready.word _)), h.offset?_base ht (Outline.ne_terminal h0)]
  by_cases hk : t = [] ∨ T.kids t ≠ []
  · rw [if_pos hk]
    dsimp only
    by_cases hx : x = 0
    · rw [if_pos hx, if_pos hx]
      rfl
    rw [if_neg hx, if_neg hx, Program.run_bind_of (Program.run_slot (h.xor_lt ht hk x))]
    split_ifs <;> rfl
  · rw [if_neg hk]
    split_ifs <;> rfl

theorem run_walk (key : Key) (ht : T.Mem t) (h0 : 0 ∉ t) :
    (Program.walk c.encoding (locate off t) key).run c p =
      some (p, p.walk c (locate off t) key) := by
  induction key generalizing t with
  | nil => rfl
  | cons x key ih =>
    unfold Program.walk Pool.walk
    rw [Program.run_bind_of (h.run_child? hready ht h0 x), h.child?_eq ht h0]
    by_cases hx : x ≠ 0 ∧ x ∈ T.kids t
    · rw [if_pos hx]
      refine ih (t := x :: t) ⟨ht, hx.2⟩ ?_
      rw [List.mem_cons, not_or]
      exact ⟨Ne.symm hx.1, h0⟩
    · rw [if_neg hx]
      rfl

theorem run_walk_root (key : Key) :
    (Program.walk c.encoding 0 key).run c p = some (p, p.walk c 0 key) :=
  h.run_walk hready key (t := []) trivial (by simp)

theorem run_valueAt (ht : T.Mem t) (h0 : 0 ∉ t) :
    (Program.valueAt c.encoding (locate off t)).run c p = some (p, p.valueAt c (locate off t)) := by
  unfold Program.valueAt Pool.valueAt
  rw [Program.run_bind_of (Program.run_slot (h.draws.lt_size ht))]
  dsimp only
  by_cases hholds : c.encoding.holdsValue (p.slot (locate off t)).base = true
  · rw [if_pos hholds, if_pos hholds]
    split_ifs <;> rfl
  rw [if_neg hholds, if_neg hholds, Program.run_bind_of (run_offset? (hready.word _)),
    h.offset?_base ht (Outline.ne_terminal h0)]
  by_cases hk : t = [] ∨ T.kids t ≠ []
  · rw [if_pos hk]
    dsimp only
    rw [Program.run_bind_of (Program.run_slot (h.off_lt_size ht hk))]
    split_ifs <;> rfl
  · rw [if_neg hk]
    rfl

/-- **A key is looked up** without a fault, whatever its bytes are. -/
theorem run_find (key : Key) :
    (Program.find c.encoding key).run c p = some (p, p.find c key) := by
  unfold Program.find Pool.find
  rw [Program.run_bind_of (h.run_walk_root hready key)]
  cases hn : p.walk c 0 key with
  | none => rfl
  | some n =>
    obtain ⟨h0, hmem, rfl⟩ := h.walk_root.mp hn
    exact h.run_valueAt hready hmem (by rwa [List.mem_reverse])

end Lays

end Pool

end DoubleArrayTrie
