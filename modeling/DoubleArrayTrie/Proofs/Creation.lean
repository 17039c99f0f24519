import DoubleArrayTrie.Proofs.Calls

/-!
# When bytes came to begin a key

A node of a trie is there as long as some key begins with its bytes. It is made by the call after
which one does, and is made anew if it went in between. So the entries after each of the calls tell
which call made a node (`Entries.MadeBy`), and which of two siblings is newer (`Entries.Newer`).

* `Entries.exists_madeBy`, `MadeBy.unique`: exactly one call made a node that is there.
* `Newer.asymm`: of two siblings one is newer.
* `newer_cons`, `newer_of_sublist`: what a call does to siblings that stand the newer first.
-/

namespace DoubleArrayTrie

/-- **What holds from some number of calls on**, when there is one more call: it did before, and it does
in the end. -/
theorem forall_take_append_singleton {P : List Call → Prop} {calls : List Call} {call : Call} {n : Nat}
    (hn : n ≤ calls.length + 1) :
    (∀ m, n ≤ m → m ≤ (calls ++ [call]).length → P ((calls ++ [call]).take m)) ↔
      (∀ m, n ≤ m → m ≤ calls.length → P (calls.take m)) ∧ P (calls ++ [call]) := by
  have hlength : (calls ++ [call]).length = calls.length + 1 := by simp
  constructor
  · intro h
    refine ⟨fun m hm hle => ?_, ?_⟩
    · have hthen := h m hm (by omega)
      rwa [List.take_append_of_le_length hle] at hthen
    · have hend := h _ (hlength ▸ hn) le_rfl
      rwa [List.take_length] at hend
  · rintro ⟨hbefore, hend⟩ m hm hle
    rcases Nat.lt_or_ge calls.length m with hlt | hge
    · rwa [List.take_of_length_le (by omega)]
    · rw [List.take_append_of_le_length hge]
      exact hbefore m hm hge

namespace Entries

/-- Some key begins with the bytes. -/
def Begins (M : Entries) (w : Key) : Prop := ∃ key ∈ M, w <+: key

/-- Call number `n` is the last before which no key began with the bytes, and since it some key always
did. -/
structure MadeBy (e : Encoding) (calls : List Call) (w : Key) (n : Nat) : Prop where
  lt : n < calls.length
  before : ¬ ((∅ : Entries).run e (calls.take n)).1.Begins w
  since : ∀ m, n < m → m ≤ calls.length → ((∅ : Entries).run e (calls.take m)).1.Begins w

/-- The bytes `w` and then `x` came to begin a key later than `w` and then `y`. -/
def Newer (e : Encoding) (calls : List Call) (w : Key) (x y : UInt8) : Prop :=
  ∃ m n, m < n ∧ MadeBy e calls (w ++ [y]) m ∧ MadeBy e calls (w ++ [x]) n

variable {e : Encoding} {calls : List Call} {call : Call} {w : Key} {x y : UInt8} {m n : Nat}

theorem not_begins_empty (w : Key) : ¬ (∅ : Entries).Begins w := by
  rintro ⟨key, hkey, -⟩
  exact Finmap.notMem_empty hkey

namespace MadeBy

/-- **Not two calls make the same node.** -/
theorem unique (hm : MadeBy e calls w m) (hn : MadeBy e calls w n) : m = n := by
  rcases Nat.lt_trichotomy m n with hlt | heq | hlt
  · exact absurd (hm.since n hlt hn.lt.le) hn.before
  · exact heq
  · exact absurd (hn.since m hlt hm.lt.le) hm.before

/-- A node that stays was made by the same call. -/
theorem append (h : MadeBy e calls w n)
    (hbegins : ((∅ : Entries).run e (calls ++ [call])).1.Begins w) :
    MadeBy e (calls ++ [call]) w n where
  lt := by
    rw [List.length_append]
    exact Nat.lt_add_right _ h.lt
  before := by
    rw [List.take_append_of_le_length h.lt.le]
    exact h.before
  since :=
    (forall_take_append_singleton (P := fun calls => ((∅ : Entries).run e calls).1.Begins w)
      (Nat.le_succ_of_le h.lt)).mpr ⟨h.since, hbegins⟩

end MadeBy

/-- A node that is new was made by the last call. -/
theorem madeBy_last (hbefore : ¬ ((∅ : Entries).run e calls).1.Begins w)
    (hbegins : ((∅ : Entries).run e (calls ++ [call])).1.Begins w) :
    MadeBy e (calls ++ [call]) w calls.length where
  lt := by simp
  before := by rwa [List.take_left]
  since :=
    (forall_take_append_singleton (P := fun calls => ((∅ : Entries).run e calls).1.Begins w)
      le_rfl).mpr ⟨fun m hm hle => absurd hm hle.not_gt, hbegins⟩

/-- **Some call made each node that is there.** -/
theorem exists_madeBy (h : ((∅ : Entries).run e calls).1.Begins w) : ∃ n, MadeBy e calls w n := by
  induction calls using List.reverseRecOn with
  | nil => exact absurd h (not_begins_empty w)
  | append_singleton calls call ih =>
    by_cases hbefore : ((∅ : Entries).run e calls).1.Begins w
    · obtain ⟨n, hn⟩ := ih hbefore
      exact ⟨n, hn.append h⟩
    · exact ⟨calls.length, madeBy_last hbefore h⟩

/-- **Of two siblings one is newer.** -/
theorem Newer.asymm (hxy : Newer e calls w x y) : ¬ Newer e calls w y x := by
  obtain ⟨m, n, hlt, hm, hn⟩ := hxy
  rintro ⟨m', n', hlt', hm', hn'⟩
  have hn := hn.unique hm'
  have hm := hm.unique hn'
  omega

/-! ### Siblings, the newer first -/

variable {ls ms : List UInt8}

/-- Siblings that stay do so in their order. -/
theorem newer_of_sublist (hls : ls.Pairwise (Newer e calls w)) (hsub : ms.Sublist ls)
    (hms : ∀ l ∈ ms, ((∅ : Entries).run e (calls ++ [call])).1.Begins (w ++ [l])) :
    ms.Pairwise (Newer e (calls ++ [call]) w) := by
  refine (hls.sublist hsub).imp_of_mem fun {x y} hx hy hxy => ?_
  obtain ⟨m, n, hlt, hm, hn⟩ := hxy
  exact ⟨m, n, hlt, hm.append (hms y hy), hn.append (hms x hx)⟩

/-- A new sibling comes first. -/
theorem newer_cons (hls : ls.Pairwise (Newer e calls w))
    (hmem : ∀ l ∈ ls, ((∅ : Entries).run e calls).1.Begins (w ++ [l]))
    (hx : ¬ ((∅ : Entries).run e calls).1.Begins (w ++ [x]))
    (hms : ∀ l ∈ x :: ls, ((∅ : Entries).run e (calls ++ [call])).1.Begins (w ++ [l])) :
    (x :: ls).Pairwise (Newer e (calls ++ [call]) w) := by
  rw [List.forall_mem_cons] at hms
  refine List.Pairwise.cons (fun y hy => ?_) (newer_of_sublist hls (List.Sublist.refl _) hms.2)
  obtain ⟨m, hm⟩ := exists_madeBy (hmem y hy)
  exact ⟨m, calls.length, hm.lt, hm.append (hms.2 y hy), madeBy_last hx hms.1⟩

end Entries

end DoubleArrayTrie
