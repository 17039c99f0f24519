import DoubleArrayTrie.Proofs.Trie.Extent
import DoubleArrayTrie.Proofs.Trie.Linking
import DoubleArrayTrie.Proofs.Programs.Reading

/-!
# Programs that change chains

A label is linked in or out at a place of the chain that is searched for first. A label that is to be
linked out is always found: the program faults otherwise.

* `Links.run_linkChild`, `Links.run_unlinkChild`: a chain is changed without a fault.
-/

namespace DoubleArrayTrie

/-! ### The programs -/

namespace Program

/-- Faults unless the chain has at most so many labels. -/
def lastBelow (k : Nat) (label : UInt8) : Nat → UInt8 → Program UInt8
  | 0, _ => fault
  | n + 1, l => do
      let s ← slot (k ^^^ l.toNat)
      if s.sibling ≠ 0 ∧ s.sibling < label then lastBelow k label n s.sibling else pure l

/-- The label of a chain that the given one comes after, which must be there. -/
def before (k : Nat) (label : UInt8) : Nat → UInt8 → Program UInt8
  | 0, _ => fault
  | n + 1, l => do
      let s ← slot (k ^^^ l.toNat)
      if s.sibling = label then pure l
      else if s.sibling = 0 then fault
      else before k label n s.sibling

/-- The label after which a new one belongs, if that is not the first place. -/
def insertAfter (ordered : Bool) (k : Nat) (label first : UInt8) : Program UInt8 :=
  if ordered then lastBelow k label maxChildren first else pure first

def linkChild (ordered : Bool) (n k : Nat) (label : UInt8) (hasChildren : Bool) : Program Unit := do
  let s ← slot n
  if hasChildren ∧ (if ordered then s.child < label else s.child = 0) then do
    let l ← insertAfter ordered k label s.child
    let t ← slot (k ^^^ l.toNat)
    writeSlot (k ^^^ l.toNat) (.sibling label)
    writeSlot (k ^^^ label.toNat) (.sibling t.sibling)
  else do
    writeSlot n (.child label)
    writeSlot (k ^^^ label.toNat) (.sibling s.child)

def unlinkChild (n k : Nat) (label : UInt8) : Program Unit := do
  let s ← slot n
  let t ← slot (k ^^^ label.toNat)
  if s.child = label then writeSlot n (.child t.sibling)
  else do
    let l ← before k label maxChildren s.child
    writeSlot (k ^^^ l.toNat) (.sibling t.sibling)

end Program

namespace Pool

variable {c : Config} {p : Pool} {k n m : Nat} {l x : UInt8} {ls : List UInt8}

namespace Links

theorem run_lastBelow (h : p.Links k (l :: ls)) (hls : IsLabels (l :: ls))
    (hk : ∀ x : UInt8, k ^^^ x.toNat < p.size) (hn : (l :: ls).length ≤ n) :
    (Program.lastBelow k x n l).run c p = some (p, p.lastBelow k x n l) := by
  induction ls generalizing l n with
  | nil =>
    obtain ⟨n, rfl⟩ := Nat.exists_eq_succ_of_ne_zero (by simpa using Nat.ne_of_gt hn)
    unfold Program.lastBelow Pool.lastBelow
    rw [Program.run_bind_of (Program.run_slot (hk l)), h.sibling_head]
    rfl
  | cons m ls ih =>
    obtain ⟨n, rfl⟩ := Nat.exists_eq_succ_of_ne_zero (Nat.ne_of_gt (Nat.zero_lt_of_lt hn))
    unfold Program.lastBelow Pool.lastBelow
    rw [Program.run_bind_of (Program.run_slot (hk l)), h.sibling_head, List.headD_cons]
    dsimp only
    split_ifs
    · exact ih (h.of_cons hls) hls.of_cons (by simpa using hn)
    · rfl

/-- **The label before one of a chain is found.** -/
theorem run_before (h : p.Links k (l :: ls)) (hls : IsLabels (l :: ls)) (hx : x ∈ ls)
    (hk : ∀ x : UInt8, k ^^^ x.toNat < p.size) (hn : ls.length ≤ n) :
    ∃ y, p.before? k x n l = some y ∧ (Program.before k x n l).run c p = some (p, y) := by
  induction ls generalizing l n with
  | nil => simp at hx
  | cons m ls ih =>
    obtain ⟨n, rfl⟩ := Nat.exists_eq_succ_of_ne_zero (Nat.ne_of_gt (Nat.zero_lt_of_lt hn))
    have hm : m ≠ 0 := fun h0 => hls.tail (by simp [h0])
    unfold Program.before before?
    rw [Program.run_bind_of (Program.run_slot (hk l)), h.sibling_head, List.headD_cons]
    dsimp only
    by_cases hmx : m = x
    · rw [if_pos hmx, if_pos hmx]
      exact ⟨l, rfl, rfl⟩
    · rw [if_neg hmx, if_neg hmx, if_neg hm, if_neg hm]
      exact ih (h.of_cons hls) hls.of_cons ((List.mem_cons.mp hx).resolve_left (Ne.symm hmx))
        (by simpa using hn)

theorem run_insertAfter (h : p.Links k (l :: ls)) (hls : IsLabels (l :: ls))
    (hk : ∀ x : UInt8, k ^^^ x.toNat < p.size) (ordered : Bool) :
    (Program.insertAfter ordered k x l).run c p =
      some (p, if ordered then p.lastBelow k x maxChildren l else l) := by
  unfold Program.insertAfter
  split_ifs
  · exact h.run_lastBelow hls hk hls.length_le
  · rfl

/-- **A label is linked in** without a fault. -/
theorem run_linkChild (h : p.Links k ls) (hls : IsLabels ls) (hn : n < p.size)
    (hk : ∀ x : UInt8, k ^^^ x.toNat < p.size) (hchild : (p.slot n).child = ls.headD 0)
    (ordered : Bool) (x : UInt8) :
    (Program.linkChild ordered n k x (!ls.isEmpty)).run c p =
      some (p.linkChild ordered n k x (!ls.isEmpty), ()) := by
  unfold Program.linkChild Pool.linkChild
  rw [Program.run_bind_of (Program.run_slot hn)]
  dsimp only
  by_cases hafter : (!ls.isEmpty) = true ∧
      (if ordered then (p.slot n).child < x else (p.slot n).child = 0)
  · rw [if_pos hafter, if_pos hafter]
    obtain ⟨l, ls, rfl⟩ := List.exists_cons_of_ne_nil (l := ls) (by simpa using hafter.1)
    rw [hchild, List.headD_cons, Program.run_bind_of (h.run_insertAfter hls hk ordered),
      Program.run_bind_of (Program.run_slot (hk _)),
      Program.run_bind_of (Program.run_setSibling (hk _) x)]
    exact Program.run_setSibling (p := p.setSibling _ x) (hk x) _
  · rw [if_neg hafter, if_neg hafter, Program.run_bind_of (Program.run_setChild hn x)]
    exact Program.run_setSibling (p := p.setChild n x) (hk x) _

/-- **A label is linked out** without a fault. -/
theorem run_unlinkChild (h : p.Links k ls) (hls : IsLabels ls) (hx : x ∈ ls) (hn : n < p.size)
    (hk : ∀ x : UInt8, k ^^^ x.toNat < p.size) (hchild : (p.slot n).child = ls.headD 0) :
    (Program.unlinkChild n k x).run c p = some (p.unlinkChild n k x, ()) := by
  obtain ⟨l, ls, rfl⟩ := List.exists_cons_of_ne_nil (List.ne_nil_of_mem hx)
  unfold Program.unlinkChild Pool.unlinkChild
  rw [Program.run_bind_of (Program.run_slot hn), Program.run_bind_of (Program.run_slot (hk x)),
    hchild, List.headD_cons]
  dsimp only
  by_cases hlx : l = x
  · rw [if_pos hlx, if_pos hlx]
    exact Program.run_setChild hn _
  · have hlen := hls.length_le
    rw [List.length_cons] at hlen
    obtain ⟨y, hy, hrun⟩ := h.run_before (c := c) (n := maxChildren) hls
      ((List.mem_cons.mp hx).resolve_left (Ne.symm hlx)) hk (Nat.le_of_succ_le hlen)
    rw [if_neg hlx, if_neg hlx, Program.run_bind_of hrun, hy]
    exact Program.run_setSibling (hk y) _

end Links

end Pool

end DoubleArrayTrie
