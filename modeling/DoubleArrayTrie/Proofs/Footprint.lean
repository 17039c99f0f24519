import Mathlib.Algebra.GroupWithZero.Nat
import DoubleArrayTrie.Proofs.Pool.Growing
import DoubleArrayTrie.Proofs.Refinement

/-!
# How large calls make a trie

A byte of a key may need a node of its own, and the node that it follows a terminal: two blocks are put
to use at most. The arrays are never more than twice as large as what is in use. So how large a trie is
after calls is bounded by the bytes of the keys in them, whatever the options.

* `Call.demand`: how many blocks a call may put to use.
* `Trie.capacity_run_le`: how many slots a new trie has after calls.
-/

namespace DoubleArrayTrie

/-- How many blocks it may need to store a key. -/
def Key.demand (key : Key) : Nat := 2 * key.length + 1

/-- How many blocks a call may need. -/
def Call.demand : Call → Nat
  | .insert key _ => key.demand
  | .insertAll entries => (entries.map fun entry => entry.1.demand).sum
  | .insertKeys keys => (keys.map Key.demand).sum
  | .erase _ => 0

namespace Trie

theorem stretch_insertAll (t : Trie) (entries : List (Key × Int32)) :
    t.pool.Stretch (entries.map fun entry => entry.1.demand).sum (t.insertAll entries).1.pool := by
  induction entries generalizing t with
  | nil => exact .refl _
  | cons entry entries ih =>
    obtain ⟨key, value⟩ := entry
    unfold insertAll
    rw [List.map_cons, List.sum_cons]
    cases t.config.admit key value with
    | error err => exact (Pool.Stretch.refl _).mono (Nat.zero_le _)
    | ok => exact (Pool.stretch_store t.config t.pool key value).trans (ih ⟨t.config, _⟩)

theorem stretch_insertKeys (t : Trie) (keys : List Key) (position : Nat) :
    t.pool.Stretch (keys.map Key.demand).sum (t.insertKeys keys position).1.pool := by
  induction keys generalizing t position with
  | nil => exact .refl _
  | cons key keys ih =>
    unfold insertKeys
    rw [List.map_cons, List.sum_cons]
    split_ifs
    · exact (Pool.Stretch.refl _).mono (Nat.zero_le _)
    · cases t.config.admit key (Int32.ofNat position) with
      | error err => exact (Pool.Stretch.refl _).mono (Nat.zero_le _)
      | ok => exact (Pool.stretch_store t.config t.pool key _).trans (ih ⟨t.config, _⟩ (position + 1))

theorem stretch_perform (t : Trie) (call : Call) :
    t.pool.Stretch call.demand (t.perform call).1.pool := by
  cases call with
  | insert key value =>
    unfold perform
    dsimp only
    rw [insert_eq]
    cases refusal t.config.encoding key value with
    | some err => exact (Pool.Stretch.refl _).mono (Nat.zero_le _)
    | none => exact Pool.stretch_store t.config t.pool key value
  | insertAll entries => exact stretch_insertAll t entries
  | insertKeys keys => exact stretch_insertKeys t keys 0
  | erase key =>
    exact (Pool.Stretch.refl _).of_same (Pool.size_erase ..) (Pool.capacity_erase ..)

theorem stretch_run (t : Trie) (calls : List Call) :
    t.pool.Stretch (calls.map Call.demand).sum (t.run calls).1.pool := by
  induction calls generalizing t with
  | nil => exact .refl _
  | cons call calls ih => exact (stretch_perform t call).trans (ih _)

theorem pool_empty (c : Config) : (Trie.empty c).pool = .empty c.encoding.rootBase := by
  rw [Trie.empty]

/-- How many slots there are where a new trie has put so many blocks to use. -/
theorem capacity_le_of_stretch {c : Config} {k : Nat} {p : Pool} (h : (Trie.empty c).pool.Stretch k p) :
    p.capacity ≤ 2 * ((1 + k) * blockSize) := by
  obtain ⟨hsize, hcapacity⟩ := h
  rw [pool_empty, Pool.size_empty] at hsize
  rw [pool_empty, Pool.size_empty, Pool.capacity_empty] at hcapacity
  rw [Nat.add_mul, Nat.one_mul]
  exact (hcapacity (by decide)).trans (Nat.mul_le_mul_left 2 hsize)

/-- **How many slots a new trie has after calls.** -/
theorem capacity_run_le (c : Config) (calls : List Call) :
    ((Trie.empty c).run calls).1.pool.capacity ≤
      2 * ((1 + (calls.map Call.demand).sum) * blockSize) :=
  capacity_le_of_stretch (stretch_run (Trie.empty c) calls)

/-- A longer key takes more than one block: only a key of one byte has its node in block `0`. -/
theorem Holds.blockSize_lt_capacity {t : Trie} {M : Entries} (h : t.Holds M) {key : Key}
    (hkey : key ∈ M) (hlong : 2 ≤ key.length) : blockSize < t.pool.capacity := by
  obtain ⟨-, h0⟩ := h.key hkey
  obtain ⟨T, off, hlays, hholds⟩ := h
  have hlookup : M.lookup key.reverse.reverse ≠ none := by
    rw [List.reverse_reverse]
    exact mt Finmap.lookup_eq_none.mp (not_not.mpr hkey)
  have hmem := (hholds.mem key.reverse (by rwa [List.mem_reverse])).mpr
    (.inr ⟨_, List.suffix_rfl, hlookup⟩)
  have hlength := key.length_reverse
  rcases hq : key.reverse with _ | ⟨l, q⟩
  · rw [hq, List.length_nil] at hlength
    omega
  · rw [hq] at hmem hlength
    have hq0 : q ≠ [] := by
      rintro rfl
      simp only [List.length_cons, List.length_nil] at hlength
      omega
    exact ((hlays.blockSize_le_locate hmem).mpr hq0).trans_lt
      ((hlays.draws.lt_size hmem).trans_le hlays.draws.kept.size_le)

section Create

variable {e : Encoding} {o : Options} {t : Trie} (hcreate : Trie.create e o = .ok t)
include hcreate

theorem capacity_run_of_create (calls : List Call) : (t.run calls).1.pool.capacity ≤
    2 * ((1 + (calls.map Call.demand).sum) * blockSize) := by
  obtain ⟨-, rfl⟩ := validate_of_create hcreate
  exact capacity_run_le _ calls

/-- So the arrays grow when a longer key is stored. -/
theorem blockSize_lt_capacity_run {calls : List Call} (key : Key)
    (hkey : key ∈ (Entries.run e ∅ calls).1) (hlong : 2 ≤ key.length) :
    blockSize < (t.run calls).1.pool.capacity := by
  obtain ⟨ho, rfl⟩ := validate_of_create hcreate
  exact (run_holds ho e calls).1.blockSize_lt_capacity hkey hlong

end Create

end Trie

end DoubleArrayTrie
