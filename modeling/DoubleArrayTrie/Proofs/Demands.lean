import DoubleArrayTrie.Proofs.Placement

/-!
# Demands on the allocator

While values are stored and erased the allocator is asked for room, for slots, and to take slots back,
and the records of slots in use are written in between. Its books are in order after each of these
demands, whatever is asked for and in whatever order, and so also while children move from one offset
to another.

* `Pool.serve`: what a demand does; `Pool.Fair`: when it may be made.
* `Pool.Serves.kept`: the invariant holds after any fair demands.
* `Trie.Arises`: the pools that arise in a trie, between calls and in the middle of them.
-/

namespace DoubleArrayTrie

/-- What the allocator may be asked for. -/
inductive Demand where
  /-- Room for a single child. -/
  | single
  /-- Room for children with these labels. -/
  | several (labels : List UInt8)
  /-- Slot `e` for child `label` of node `n`. -/
  | take (e : Nat) (label : UInt8) (n : Nat)
  /-- Slot `e` is not in use any longer. -/
  | give (e : Nat)
  /-- The record of slot `e` is changed, which is no business of the allocator. -/
  | write (e : Nat) (f : Slot → Slot)

namespace Pool

/-- What a demand does. -/
def serve (c : Config) (p : Pool) : Demand → Pool
  | .single => (p.placeOne c).1
  | .several labels => (p.placeFor c labels).1
  | .take e label n => p.occupy c e label n
  | .give e => p.release c e
  | .write e f => p.modifySlot e f

/-- Free slots may be taken, slots in use other than that of the root may be given back, and a write
leaves a slot in use. -/
def Fair (p : Pool) : Demand → Prop
  | .single => True
  | .several labels => labels.Nodup ∧ 2 ≤ labels.length
  | .take e _ _ => p.Free e
  | .give e => e ≠ 0 ∧ ∃ s, p.live e = some s
  | .write e f => ∃ s, p.live e = some s ∧ (e = 0 ∨ 0 ≤ (f s).check)

/-- Fair demands, one after the other, lead from one pool to another. -/
inductive Serves (c : Config) : Pool → List Demand → Pool → Prop
  | done {p : Pool} : Serves c p [] p
  | next {p q : Pool} {d : Demand} {ds : List Demand} :
      p.Fair d → Serves c (p.serve c d) ds q → Serves c p (d :: ds) q

variable {c : Config} {p q : Pool} {d : Demand} {ds : List Demand}

/-- **A fair demand keeps the invariant.** -/
theorem WellKept.serve (h : p.WellKept c) (hd : p.Fair d) : (p.serve c d).WellKept c := by
  cases d with
  | single => exact h.placeOne.1
  | several labels => exact (h.placeFor hd.2 (length_le_of_nodup hd.1)).1
  | take e label n => exact h.occupy hd label n
  | give e =>
    obtain ⟨h0, s, hs⟩ := hd
    exact h.release hs h0
  | write e f =>
    obtain ⟨s, hs, hf⟩ := hd
    exact h.write hs f hf

/-- **Fair demands keep the invariant.** -/
theorem Serves.kept (hserves : p.Serves c ds q) (h : p.WellKept c) : q.WellKept c := by
  induction hserves with
  | done => exact h
  | next hd _ ih => exact ih (h.serve hd)

theorem Serves.snoc (hserves : p.Serves c ds q) (hd : q.Fair d) :
    p.Serves c (ds ++ [d]) (q.serve c d) := by
  induction hserves with
  | done => exact .next hd .done
  | next hfair _ ih => exact .next hfair (ih hd)

end Pool

namespace Trie

/-- The pools that arise in a trie: what any fair demands make of those that come up between calls and
whenever a child is asked for. -/
def Arises (t : Trie) (p : Pool) : Prop :=
  ∃ p₀ ds, t.ComesTo p₀ ∧ p₀.Serves t.config ds p

variable {o : Options} {e : Encoding} {t : Trie} {p : Pool} {d : Demand}

theorem ComesTo.arises (h : t.ComesTo p) : t.Arises p := ⟨p, [], h, .done⟩

theorem Arises.serve (h : t.Arises p) (hd : p.Fair d) : t.Arises (p.serve t.config d) := by
  obtain ⟨p₀, ds, hp₀, hserves⟩ := h
  exact ⟨p₀, ds ++ [d], hp₀, hserves.snoc hd⟩

theorem Arises.kept (hcreate : Trie.create e o = .ok t) (h : t.Arises p) : p.WellKept t.config := by
  obtain ⟨p₀, ds, hp₀, hserves⟩ := h
  exact hserves.kept (hp₀.kept hcreate)

end Trie

end DoubleArrayTrie
