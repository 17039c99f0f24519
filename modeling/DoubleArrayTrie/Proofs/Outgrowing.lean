import Mathlib.Data.Nat.Bitwise
import Mathlib.Data.Nat.Prime.Basic
import DoubleArrayTrie.Proofs.Accounting
import DoubleArrayTrie.Proofs.GrowthPolicy

/-!
# Where growth does matter

The arrays have `2 ^ 31` slots at most. Doubling takes them right there; other steps lead beyond it from
below, while less is in use. So there are calls that one trie takes and that another, which differs in
nothing but its growth, does not.

* `Trie.two_pow_of_doubling`, `Trie.misses_of_linear`: the capacities that come up.
* `Trie.lt_size_of_stores`: the more keys the more slots.
* `Trie.exists_outgrown`: calls that are too much for one trie and not for the other.
-/

namespace DoubleArrayTrie

/-! ### The capacities that come up -/

namespace Trie

/-- What growth keeps of the capacity is so after any calls. -/
theorem capacity_kept {c : Config} {P : Nat → Prop} (hP : ∀ n, P n → P (n + c.growth.step n))
    (h0 : P blockSize) (calls : List Call) : P ((Trie.empty c).run calls).1.pool.capacity :=
  Pool.Lockstep.kept_run (P := fun p => P p.capacity) (Pool.lockstep_of_capacity hP)
    (by rwa [pool_empty, Pool.capacity_empty]) calls

/-- Arrays that double have a power of two. -/
theorem two_pow_of_doubling {c : Config} (hc : c.growth = .doubling) (calls : List Call) :
    ∃ k, ((Trie.empty c).run calls).1.pool.capacity = 2 ^ k := by
  refine capacity_kept (P := fun n => ∃ k, n = 2 ^ k) ?_ ⟨8, rfl⟩ calls
  rintro _ ⟨k, rfl⟩
  refine ⟨k + 1, ?_⟩
  rw [hc, Growth.step, Nat.pow_succ]
  omega

/-- Arrays that grow by `3 * 2 ^ 20` blocks never have between `7 * 2 ^ 28` slots and `2 ^ 31`: they
double up to `2 ^ 30`, go on by `3 * 2 ^ 28` slots, and so miss `2 ^ 31`. -/
theorem misses_of_linear {c : Config} (hc : c.growth = .linear 3145728) (calls : List Call) :
    ((Trie.empty c).run calls).1.pool.capacity ≤ 7 * 2 ^ 28 ∨
      Access.maxCapacity < ((Trie.empty c).run calls).1.pool.capacity := by
  have hkept := capacity_kept (c := c)
    (P := fun n => n ∣ 2 ^ 30 ∨ n = 7 * 2 ^ 28 ∨ Access.maxCapacity < n) ?_ ?_ calls
  · rcases hkept with hdvd | heq | hlt
    · exact .inl ((Nat.le_of_dvd (by decide) hdvd).trans (by decide))
    · exact .inl heq.le
    · exact .inr hlt
  · rintro n (hdvd | rfl | hlt)
    · obtain ⟨k, hk, rfl⟩ := (Nat.dvd_prime_pow Nat.prime_two).mp hdvd
      rw [hc, Growth.step]
      rcases hk.lt_or_eq with hk | rfl
      · have hle : 2 ^ k ≤ 2 ^ 29 := Nat.pow_le_pow_right (by decide) (Nat.le_of_lt_succ hk)
        rw [min_eq_right (hle.trans (by decide)), ← Nat.two_mul, ← Nat.pow_succ']
        exact .inl (Nat.pow_dvd_pow 2 hk)
      · exact .inr (.inl (by decide))
    · rw [hc]
      exact .inr (.inr (by decide))
    · exact .inr (.inr (hlt.trans_le (Nat.le_add_right ..)))
  · exact .inl (by decide)

/-- At least half of the slots of a trie that calls have made are in use. -/
theorem capacity_le_size (c : Config) (calls : List Call) :
    ((Trie.empty c).run calls).1.pool.capacity ≤ 2 * ((Trie.empty c).run calls).1.pool.size := by
  refine (stretch_run (Trie.empty c) calls).capacity_le ?_
  rw [pool_empty, Pool.size_empty, Pool.capacity_empty]
  decide

end Trie

/-! ### Many keys -/

/-- A key of 32 bytes for each number below `2 ^ 32`. -/
def Key.binary (i : Nat) : Key := (List.range 32).map fun j => if i.testBit j then 2 else 1

theorem Key.binary_inj {i j : Nat} (hi : i < 2 ^ 32) (hj : j < 2 ^ 32)
    (h : Key.binary i = Key.binary j) : i = j := by
  refine Nat.eq_of_testBit_eq fun k => ?_
  by_cases hk : k < 32
  · have hbyte := List.map_inj_left.mp h k (List.mem_range.mpr hk)
    cases hik : i.testBit k <;> cases hjk : j.testBit k <;> simp_all
  · have hle : 2 ^ 32 ≤ 2 ^ k := Nat.pow_le_pow_right (by decide) (not_lt.mp hk)
    rw [Nat.testBit_lt_two_pow (hi.trans_le hle), Nat.testBit_lt_two_pow (hj.trans_le hle)]

theorem Key.refusal_binary (e : Encoding) (i : Nat) : refusal e (.binary i) 0 = none := by
  have h0 : 0 ∉ Key.binary i := by
    unfold Key.binary
    rw [List.mem_map]
    rintro ⟨j, -, hj⟩
    split_ifs at hj <;> exact absurd hj (by decide)
  rw [refusal, if_neg (by simp [Key.binary]), if_neg h0, if_neg fun h => h.2 (by decide)]

/-- So many keys are stored, one after the other. -/
def storing (n : Nat) : List Call := (List.range n).map fun i => .insert (.binary i) 0

theorem storing_succ (n : Nat) : storing (n + 1) = storing n ++ [.insert (.binary n) 0] := by
  rw [storing, List.range_succ, List.map_append]
  rfl

theorem Entries.mem_storing (e : Encoding) {n i : Nat} (hi : i < n) :
    Key.binary i ∈ (Entries.run e ∅ (storing n)).1 := by
  induction n with
  | zero => omega
  | succ n ih =>
    rw [storing_succ, run_append]
    simp only [run, perform, Key.refusal_binary]
    rw [Finmap.mem_insert]
    by_cases hin : i = n
    · exact .inl (congrArg Key.binary hin)
    · exact .inr (ih (by omega))

namespace Trie

variable {t u : Trie} {M : Entries}

/-- **A trie has more slots than keys.** -/
theorem Holds.card_lt_size (h : t.Holds M) (hsize : t.pool.size < 18446744073709551616) :
    M.keys.card < t.pool.size := by
  have hstems : M.keys ⊆ M.stems := fun key hkey => by
    rw [Finmap.mem_keys] at hkey
    exact Entries.mem_stems.mpr ⟨(h.key hkey).1, key, hkey, List.prefix_rfl⟩
  have hcard := Finset.card_le_card hstems
  obtain ⟨T, hT⟩ := h
  have hcount := Shows.freeSlots hT hsize
  omega

/-- So many keys have as many slots in use. -/
theorem lt_size_storing {o : Options} {e : Encoding} (hcreate : create e o = .ok t) {n : Nat}
    (hn : n ≤ 2 ^ 32) : n < (t.run (storing n)).1.pool.size := by
  obtain ⟨ho, rfl⟩ := validate_of_create hcreate
  obtain ⟨hholds, -⟩ := run_holds ho e (storing n)
  by_cases hsize : ((Trie.empty { o with encoding := e }).run (storing n)).1.pool.size <
      18446744073709551616
  · have hkeys : (Finset.range n).image Key.binary ⊆ (Entries.run e ∅ (storing n)).1.keys := by
      rw [Finset.image_subset_iff]
      intro i hi
      exact Finmap.mem_keys.mpr (Entries.mem_storing e (Finset.mem_range.mp hi))
    have hinj : Set.InjOn Key.binary (Finset.range n) := fun i hi j hj =>
      Key.binary_inj ((Finset.mem_range.mp hi).trans_le hn) ((Finset.mem_range.mp hj).trans_le hn)
    have hcard := Finset.card_le_card hkeys
    rw [Finset.card_image_of_injOn hinj, Finset.card_range] at hcard
    exact hcard.trans_lt (hholds.card_lt_size hsize)
  · omega

/-- One more of them needs 65 blocks at most. -/
theorem size_storing_succ_le (t : Trie) (n : Nat) : (t.run (storing (n + 1))).1.pool.size ≤
    (t.run (storing n)).1.pool.size + 65 * blockSize := by
  rw [storing_succ, run_append]
  exact (stretch_run _ [.insert (.binary n) 0]).size_le

/-! ### One trie outgrows another -/

section

variable {o : Options} {e : Encoding} (ht : create e { o with growth := .doubling } = .ok t)
  (hu : create e { o with growth := .linear 3145728 } = .ok u) (hmax : o.maxTrial ≤ 2147483647)
include ht hu hmax

/-- While the arrays of the other trie are not too large, the next key does not take arrays that
double beyond the limit. -/
theorem capacity_storing_succ_le {n : Nat}
    (hcap : (t.run (storing n)).1.pool.capacity ≤ Access.maxCapacity)
    (hcap' : (u.run (storing n)).1.pool.capacity ≤ Access.maxCapacity) :
    (t.run (storing (n + 1))).1.pool.capacity ≤ Access.maxCapacity := by
  obtain ⟨ho, rfl⟩ := validate_of_create ht
  obtain ⟨ho', rfl⟩ := validate_of_create hu
  obtain ⟨-, htwins, -, htidy⟩ := twins_run
    (t := Trie.empty { o with growth := .doubling, encoding := e })
    (u := Trie.empty { o with growth := .linear 3145728, encoding := e })
    (holds_empty (create_eq ho e).2) (holds_empty (create_eq ho' e).2) (ready_empty _)
    (ready_empty _) hmax rfl (tidy_empty _) (tidy_empty _) (twins_empty rfl) hcap hcap'
  have hmisses := (misses_of_linear rfl (storing n)).resolve_right (not_lt.mpr hcap')
  have hgrown := size_storing_succ_le (Trie.empty { o with growth := .doubling, encoding := e }) n
  obtain ⟨k, hk⟩ := two_pow_of_doubling (c := { o with growth := .doubling, encoding := e }) rfl
    (storing (n + 1))
  have hhalf := capacity_le_size { o with growth := .doubling, encoding := e } (storing (n + 1))
  rw [htwins.size] at hgrown
  have hlt : 2 ^ k < 2 ^ 32 := by
    rw [← hk]
    have hle := htidy.size_le
    unfold blockSize at hgrown
    omega
  have hle : k ≤ 31 := Nat.le_of_lt_succ ((Nat.pow_lt_pow_iff_right (by decide)).mp hlt)
  rw [hk]
  exact Nat.pow_le_pow_right (by decide) hle

/-- **Calls that are too much for one of two tries**, which differ in nothing but their growth. -/
theorem exists_outgrown : ∃ n, (t.run (storing n)).1.pool.capacity ≤ Access.maxCapacity ∧
    Access.maxCapacity < (u.run (storing n)).1.pool.capacity := by
  have hlarge : ∃ n, Access.maxCapacity < (u.run (storing n)).1.pool.capacity := by
    refine ⟨Access.maxCapacity, (lt_size_storing hu (by decide)).trans_le ?_⟩
    obtain ⟨ho, rfl⟩ := validate_of_create hu
    exact (run_holds ho e _).1.kept.size_le
  refine ⟨Nat.find hlarge, ?_, Nat.find_spec hlarge⟩
  suffices hall : ∀ n ≤ Nat.find hlarge,
      (t.run (storing n)).1.pool.capacity ≤ Access.maxCapacity from hall _ le_rfl
  intro n
  induction n with
  | zero =>
    intro _
    exact (capacity_run_of_create ht []).trans (by decide)
  | succ n ih =>
    intro hn
    exact capacity_storing_succ_le ht hu hmax (ih (Nat.le_of_succ_le hn))
      (not_lt.mp (Nat.find_min hlarge hn))

end

end Trie

end DoubleArrayTrie
