import DoubleArrayTrie.Proofs.Answers
import DoubleArrayTrie.Proofs.Erasure

/-!
# The stored keys that given bytes begin with

A search along a byte string goes on from the node that it has come to, and is to find what a look-up
of each beginning finds: no more and no less, at the same node.

* `Pool.Lays.returns_beginnings`: what the calls of a search return, from any node on.
* `Trie.Begins`: the matches for all beginnings that are stored, and the bounds on their number.
* `Trie.begins_run`: this is so after any calls on a new trie.
-/

namespace DoubleArrayTrie

namespace Trie

variable {t : Trie} {M : Entries} {T : Outline} {off : Trail → Nat} {key : Key} {u : Trail}

/-! ### Looking up a key -/

theorem get?_of_mem (h : t.pool.Lays t.config T off) (h0 : 0 ∉ key) (hmem : T.Mem key.reverse) :
    t.get? key = (t.pool.valueAt t.config (locate off key.reverse)).value?.map fun value =>
      ⟨value, key.length, locate off key.reverse⟩ := by
  unfold Trie.get?
  rw [h.walk_root.mpr ⟨h0, hmem, rfl⟩]

theorem get?_of_not (h : t.pool.Lays t.config T off) (hmem : ¬ (0 ∉ key ∧ T.Mem key.reverse)) :
    t.get? key = none := by
  unfold Trie.get?
  rw [h.walk_of_not hmem]

/-! ### Going on from a node -/

/-- The beginnings of some bytes that are stored, with the bytes `stem` before them, as matches. -/
def beginnings (t : Trie) (stem rest : Key) : List Match :=
  (List.range' 1 rest.length).filterMap fun n => t.get? (stem ++ rest.take n)

/-- The first byte is a beginning, and the others go on from it. -/
theorem beginnings_cons (t : Trie) (stem : Key) (x : UInt8) (rest : Key) :
    t.beginnings stem (x :: rest) =
      (t.get? (stem ++ [x])).toList ++ t.beginnings (stem ++ [x]) rest := by
  have hrest : (fun n => t.get? (stem ++ (x :: rest).take n)) ∘ (1 + ·) =
      fun n => t.get? (stem ++ [x] ++ rest.take n) := by
    funext n
    rw [Function.comp_apply, Nat.add_comm, List.take_succ_cons, List.append_assoc]
    rfl
  unfold beginnings
  rw [List.length_cons, List.range'_succ, List.filterMap_cons,
    ← List.map_add_range', List.filterMap_map, hrest, List.take_succ_cons,
    List.take_zero]
  cases t.get? (stem ++ [x]) <;> rfl

/-- Bytes that lead out of the trie are no beginnings of keys. -/
theorem beginnings_eq_nil (h : t.pool.Lays t.config T off) {stem rest : Key}
    (hmem : ¬ (0 ∉ stem ∧ T.Mem stem.reverse)) : t.beginnings stem rest = [] := by
  unfold beginnings
  rw [List.filterMap_eq_nil_iff]
  intro n _
  refine get?_of_not h fun hlong => hmem ?_
  rw [List.mem_append, not_or, List.reverse_append] at hlong
  exact ⟨hlong.1.1, Outline.mem_of_suffix hlong.2 (List.suffix_append ..)⟩

/-- Where no bytes are left a search is at its end. -/
theorem returns_of_rest_eq_nil (t : Trie) {s : PrefixSearch} (hs : s.rest = []) :
    Returns (PrefixSearch.next t) s [] := by
  refine returns_nil (I := fun s => s.rest = []) (fun s hs => ?_) hs
  obtain ⟨node, length, rest⟩ := s
  obtain rfl : rest = [] := hs
  exact ⟨rfl, rfl⟩

/-- **From a node on** the calls of a search return the matches for all beginnings that are stored. -/
theorem returns_beginnings (h : t.pool.Lays t.config T off) (hu : T.Mem u) (h0 : 0 ∉ u)
    (rest : Key) : Returns (PrefixSearch.next t) ⟨locate off u, u.length, rest⟩
      (t.beginnings u.reverse rest) := by
  induction rest generalizing u with
  | nil => exact returns_of_rest_eq_nil t rfl
  | cons x rest ih =>
    have hkey : u.reverse ++ [x] = (x :: u).reverse := (List.reverse_cons ..).symm
    have hstep : (PrefixSearch.mk (locate off u) u.length (x :: rest)).next t =
        PrefixSearch.advance t (locate off u) u.length (x :: rest) := rfl
    unfold PrefixSearch.advance at hstep
    rw [h.child?_eq hu h0] at hstep
    rw [beginnings_cons, hkey]
    by_cases hx : x ≠ 0 ∧ x ∈ T.kids u
    · have hmem : T.Mem (x :: u) := ⟨hu, hx.2⟩
      have hx0 : 0 ∉ x :: u := by
        rw [List.mem_cons, not_or]
        exact ⟨Ne.symm hx.1, h0⟩
      have hget : t.get? (x :: u).reverse = _ :=
        get?_of_mem h (by rwa [List.mem_reverse]) (by rwa [List.reverse_reverse])
      rw [List.reverse_reverse, List.length_reverse] at hget
      rw [if_pos hx] at hstep
      dsimp only at hstep
      rw [hget]
      cases hvalue : t.pool.valueAt t.config (locate off (x :: u)) with
      | found v =>
        rw [hvalue] at hstep
        exact returns_cons hstep (ih hmem hx0)
      | noValue =>
        rw [hvalue] at hstep
        exact (ih hmem hx0).congr hstep
      | absent =>
        rw [hvalue] at hstep
        exact (ih hmem hx0).congr hstep
    · rw [if_neg hx] at hstep
      have hout : ¬ (0 ∉ (x :: u).reverse ∧ T.Mem (x :: u).reverse.reverse) := by
        rw [List.mem_reverse, List.reverse_reverse, List.mem_cons, not_or]
        exact fun hc => hx ⟨Ne.symm hc.1.1, hc.2.2⟩
      rw [get?_of_not h hout, beginnings_eq_nil h hout, Option.toList_none, List.append_nil,
        returns_iff, hstep]
      exact ⟨rfl, returns_of_rest_eq_nil t rfl⟩

/-! ### Beginnings of a key -/

/-- What a search for the beginnings of a key finds: -/
structure Begins (t : Trie) (M : Entries) (key : Key) : Prop where
  /-- Its calls return the matches that are collected, and none ever after. -/
  returns : Returns (PrefixSearch.next t) (.start key) (t.commonPrefixes key)
  /-- These are what is found for each beginning that is stored, the shortest first. -/
  beginnings : t.commonPrefixes key = (List.range' 1 key.length).filterMap fun n => t.get? (key.take n)
  /-- What is found are the entries. -/
  stored : ∀ stem, (t.get? stem).map (fun m => (m.length, m.value)) =
    (M.lookup stem).map fun value => (stem.length, value)
  /-- Before each call the number of matches to come is between the bounds. -/
  hint : ∀ n,
    (stateAfter (PrefixSearch.next t) (.start key) n).sizeHint.1 ≤
      ((t.commonPrefixes key).drop n).length ∧
    ((t.commonPrefixes key).drop n).length ≤
      (stateAfter (PrefixSearch.next t) (.start key) n).sizeHint.2
  /-- The upper bound never goes up. -/
  antitone : Antitone fun n => (stateAfter (PrefixSearch.next t) (.start key) n).sizeHint.2

/-- A call reads a byte at least for the match that it returns. -/
theorem length_rest_advance (t : Trie) (node length : Nat) (rest : Key) :
    (PrefixSearch.advance t node length rest).2.rest.length +
      (PrefixSearch.advance t node length rest).1.toList.length ≤ rest.length := by
  induction rest generalizing node length with
  | nil => exact Nat.le_refl _
  | cons x rest ih =>
    unfold PrefixSearch.advance
    split
    · exact Nat.zero_le _
    · rename_i n _
      split
      · exact Nat.le_refl _
      · exact (ih n (length + 1)).trans (Nat.le_succ _)

/-- **The beginnings of a key** that are stored are found, and no more than the bounds tell. -/
theorem Holds.begins (h : t.Holds M) (key : Key) : t.Begins M key := by
  let μ : PrefixSearch → Nat := fun s => s.sizeHint.2
  have hμ : ∀ s, μ (s.next t).2 + (s.next t).1.toList.length ≤ μ s :=
    fun s => length_rest_advance t s.node s.length s.rest
  obtain ⟨T, off, hlays, hM⟩ := h
  have hroot : T.Mem [] := trivial
  have hreturns : Returns (PrefixSearch.next t) (.start key) (t.beginnings [] key) :=
    returns_beginnings hlays hroot List.not_mem_nil key
  have hall : t.commonPrefixes key = t.beginnings [] key :=
    hreturns.drain_eq (hreturns.length_le μ hμ)
  rw [← hall] at hreturns
  exact
    { returns := hreturns
      beginnings := hall
      stored := fun stem => by
        rw [show t.get? stem = _ from hlays.get?_eq hM stem, Option.map_map]
        rfl
      hint := fun n => ⟨Nat.zero_le _, hreturns.length_drop_le μ hμ n⟩
      antitone := antitone_stateAfter μ hμ _ }

/-- **After any calls on a new trie the stored keys that given bytes begin with are found**, the
shortest first, at the nodes where they are looked up. Before each call their number is within the
bounds. -/
theorem begins_run {o : Options} (ho : o.validate = .ok ()) (e : Encoding) (calls : List Call) :
    ∃ t, Trie.create e o = .ok t ∧
      ∀ key, (t.run calls).1.Begins (Entries.run e ∅ calls).1 key := by
  obtain ⟨hholds, -, -⟩ := run_holds ho e calls
  exact ⟨_, (create_eq ho e).1, hholds.begins⟩

/-- Bytes that go on from two stored keys. -/
theorem begins_run_reduced : Options.validate {} = .ok () ∧ ∃ t, Trie.create .reduced {} = .ok t ∧
    (t.run [.insert [97] 1, .insert [97, 98, 99] 2]).1.Begins
      (Entries.run .reduced ∅ [.insert [97] 1, .insert [97, 98, 99] 2]).1 [97, 98, 99, 0] := by
  obtain ⟨t, ht, hbegins⟩ := begins_run (o := {}) rfl .reduced
    [.insert [97] 1, .insert [97, 98, 99] 2]
  exact ⟨rfl, t, ht, hbegins _⟩

end Trie

end DoubleArrayTrie
