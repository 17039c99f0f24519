import Mathlib.Logic.Function.Iterate
import Mathlib.Order.Monotone.Basic
import DoubleArrayTrie.Trie.Query

/-!
# The answers of a search

A search is a state and a step, and whoever uses it takes one step after the other, also after the
search has come to its end. So what it gives is told call by call: each call returns the next answer,
and from the end on every call returns none.

* `stateAfter`, `Returns`: the state before a call, and what all calls return.
* `Returns.drain_eq`: the answers that are collected.
* `Returns.length_drop_le`: how many are still to come, told by a measure of the state.
-/

namespace DoubleArrayTrie

section

variable {σ α : Type} {next : σ → Option α × σ} {s s' : σ} {a : α} {as : List α} {n : Nat}

/-- The state of a search after so many calls. -/
def stateAfter (next : σ → Option α × σ) (s : σ) (n : Nat) : σ := (fun s => (next s).2)^[n] s

/-- The calls of a search from a state on return these answers, one after the other, and no answer
ever after. -/
def Returns (next : σ → Option α × σ) (s : σ) (as : List α) : Prop :=
  ∀ n, (next (stateAfter next s n)).1 = as[n]?

theorem stateAfter_succ (next : σ → Option α × σ) (s : σ) (n : Nat) :
    stateAfter next s (n + 1) = stateAfter next (next s).2 n := rfl

/-- What each call keeps is so after any number of calls. -/
theorem stateAfter_kept {I : σ → Prop} (hstep : ∀ s, I s → I (next s).2) (hs : I s) (n : Nat) :
    I (stateAfter next s n) := by
  induction n generalizing s with
  | zero => exact hs
  | succ n ih => exact ih (hstep s hs)

/-! ### From call to call -/

/-- The first call tells the answers of the others. -/
theorem returns_iff : Returns next s as ↔
    (next s).1 = as.head? ∧ Returns next (next s).2 as.tail := by
  constructor
  · intro h
    refine ⟨(h 0).trans List.head?_eq_getElem?.symm, fun n => ?_⟩
    rw [← stateAfter_succ, h (n + 1), List.getElem?_tail]
  · rintro ⟨hfirst, hrest⟩ n
    cases n with
    | zero => exact hfirst.trans List.head?_eq_getElem?
    | succ n => rw [stateAfter_succ, hrest n, List.getElem?_tail]

/-- A search that stays where it gives no answer is at its end. -/
theorem returns_nil {I : σ → Prop} (hI : ∀ s, I s → (next s).1 = none ∧ I (next s).2) (hs : I s) :
    Returns next s [] := by
  intro n
  induction n generalizing s with
  | zero => exact (hI s hs).1
  | succ n ih => exact ih (hI s hs).2

theorem returns_cons (h : next s = (some a, s')) (hs : Returns next s' as) :
    Returns next s (a :: as) := by
  rw [returns_iff, h]
  exact ⟨rfl, hs⟩

/-- States with the same step give the same answers. -/
theorem Returns.congr (h : Returns next s' as) (hs : next s = next s') : Returns next s as := by
  rw [returns_iff] at h ⊢
  rwa [hs]

theorem Returns.exists_next (h : Returns next s (a :: as)) :
    ∃ s', next s = (some a, s') ∧ Returns next s' as := by
  obtain ⟨hfirst, hrest⟩ := returns_iff.mp h
  exact ⟨(next s).2, Prod.ext hfirst rfl, hrest⟩

/-- **After so many calls** the answers that are left are still to come. -/
theorem Returns.drop (h : Returns next s as) (n : Nat) :
    Returns next (stateAfter next s n) (as.drop n) := by
  induction n generalizing s as with
  | zero => exact h
  | succ n ih =>
    rw [stateAfter_succ, ← List.drop_tail]
    exact ih (returns_iff.mp h).2

/-! ### Collecting answers -/

/-- All answers of a search are collected, if there is room for them. -/
theorem Returns.drain_eq (h : Returns next s as) (hn : as.length ≤ n) : drain next n s = as := by
  induction n generalizing s as with
  | zero => exact (List.length_eq_zero_iff.mp (Nat.le_zero.mp hn)).symm
  | succ n ih =>
    unfold drain
    obtain ⟨hfirst, hrest⟩ := returns_iff.mp h
    generalize next s = x at hfirst hrest ⊢
    obtain ⟨a?, s'⟩ := x
    cases as with
    | nil =>
      obtain rfl : a? = none := hfirst
      rfl
    | cons a as =>
      obtain rfl : a? = some a := hfirst
      exact congrArg _ (ih hrest (Nat.le_of_succ_le_succ hn))

/-! ### Measures -/

section

variable (μ : σ → Nat) (hμ : ∀ s, μ (next s).2 + (next s).1.toList.length ≤ μ s)
include hμ

/-- What goes down by one with each answer bounds their number. -/
theorem Returns.length_le (h : Returns next s as) : as.length ≤ μ s := by
  induction as generalizing s with
  | nil => exact Nat.zero_le _
  | cons a as ih =>
    obtain ⟨s', hs, hrest⟩ := h.exists_next
    have hstep := hμ s
    rw [hs] at hstep
    exact (Nat.succ_le_succ (ih hrest)).trans hstep

/-- **Before each call** it bounds the number of answers that are still to come. -/
theorem Returns.length_drop_le (h : Returns next s as) (n : Nat) :
    (as.drop n).length ≤ μ (stateAfter next s n) :=
  (h.drop n).length_le μ hμ

/-- It never goes up. -/
theorem antitone_stateAfter (s : σ) : Antitone fun n => μ (stateAfter next s n) := by
  refine antitone_nat_of_succ_le fun n => ?_
  unfold stateAfter
  rw [Function.iterate_succ_apply']
  exact (Nat.le_add_right _ _).trans (hμ _)

end

end

end DoubleArrayTrie
