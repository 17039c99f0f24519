import Mathlib.Data.Finmap
import DoubleArrayTrie.Trie.Erase
import DoubleArrayTrie.Trie.Insert

/-!
# Calls on a trie and on its entries

What a trie is for is told without any slots: it is a finite map from byte strings to numbers, which
a sequence of calls changes. A call on the trie and the same call on the map are to give the same
answer, and so are questions for a key.

* `Trie.run`, `Entries.run`: a sequence of calls on a trie, and on a finite map.
* `Entries.answer`: what is to be found for a key.
* `admit_eq`: which entries are refused, and why.
-/

namespace DoubleArrayTrie

/-- A call that may change a trie. -/
inductive Call where
  | insert (key : Key) (value : Int32)
  | insertAll (entries : List (Key × Int32))
  | insertKeys (keys : List Key)
  | erase (key : Key)

/-- A call that is about one key. -/
def Call.Single : Call → Prop
  | .insert .. | .erase .. => True
  | .insertAll .. | .insertKeys .. => False

/-- What a call returns. -/
inductive Answer where
  | stored (result : Except Error (Option Int32))
  | built (result : Except Error Unit)
  | erased (result : Lookup)

namespace Trie

/-- The trie after a call, and what the call returns. A trie that refuses an entry stays as it is. -/
def perform (t : Trie) : Call → Trie × Answer
  | .insert key value =>
      match t.insert key value with
      | .error err => (t, .stored (.error err))
      | .ok (t, previous) => (t, .stored (.ok previous))
  | .insertAll entries => ((t.insertAll entries).1, .built (t.insertAll entries).2)
  | .insertKeys keys => ((t.insertKeys keys).1, .built (t.insertKeys keys).2)
  | .erase key => ((t.erase key).1, .erased (t.erase key).2)

/-- The trie after some calls, and what they return. -/
def run (t : Trie) : List Call → Trie × List Answer
  | [] => (t, [])
  | call :: calls =>
      let (t, answer) := t.perform call
      let (t, answers) := run t calls
      (t, answer :: answers)

theorem run_append (t : Trie) (calls more : List Call) :
    (t.run (calls ++ more)).1 = ((t.run calls).1.run more).1 := by
  induction calls generalizing t with
  | nil => rfl
  | cons call calls ih => exact ih _

end Trie

/-- The entries of a trie, as a finite map. -/
abbrev Entries := Finmap fun _ : Key => Int32

/-- Why an entry is refused, if it is: the key is empty, or else has a zero byte, or else the value
is out of the range of the encoding. -/
def refusal (e : Encoding) (key : Key) (value : Int32) : Option Error :=
  if key = [] then some .emptyKey
  else if 0 ∈ key then some (.nulByte (key.idxOf 0))
  else if e = .reduced ∧ ¬ (0 ≤ value.toInt ∧ value.toInt < Encoding.unset)
  then some (.valueOutOfRange value)
  else none

namespace Entries

/-- The entries in order, up to the first that is refused. -/
def insertAll (e : Encoding) (M : Entries) : List (Key × Int32) → Entries × Except Error Unit
  | [] => (M, .ok ())
  | (key, value) :: entries =>
      match refusal e key value with
      | some err => (M, .error err)
      | none => insertAll e (M.insert key value) entries

/-- The keys with their positions as values, up to the first that is refused. A position must be a
32-bit number. -/
def insertKeys (e : Encoding) (M : Entries) (position : Nat) : List Key → Entries × Except Error Unit
  | [] => (M, .ok ())
  | key :: keys =>
      if 2147483647 < position then (M, .error (.valueOutOfRange 2147483647))
      else
        match refusal e key (Int32.ofNat position) with
        | some err => (M, .error err)
        | none => insertKeys e (M.insert key (Int32.ofNat position)) (position + 1) keys

open Classical in
/-- What is found for a key: its value, else nothing but a node if entries go on from it. -/
noncomputable def answer (M : Entries) (key : Key) : Lookup :=
  match M.lookup key with
  | some value => .found value
  | none => if key = [] ∨ ∃ longer ∈ M, key <+: longer then .noValue else .absent

/-- The entries after a call, and what the call returns. -/
noncomputable def perform (e : Encoding) (M : Entries) : Call → Entries × Answer
  | .insert key value =>
      match refusal e key value with
      | some err => (M, .stored (.error err))
      | none => (M.insert key value, .stored (.ok (M.lookup key)))
  | .insertAll entries => ((M.insertAll e entries).1, .built (M.insertAll e entries).2)
  | .insertKeys keys => ((M.insertKeys e 0 keys).1, .built (M.insertKeys e 0 keys).2)
  | .erase key => (M.erase key, .erased (M.answer key))

/-- The entries after some calls, and what they return. -/
noncomputable def run (e : Encoding) (M : Entries) : List Call → Entries × List Answer
  | [] => (M, [])
  | call :: calls =>
      let (M, answer) := M.perform e call
      let (M, answers) := run e M calls
      (M, answer :: answers)

theorem answer_empty {key : Key} (hkey : key ≠ []) : (∅ : Entries).answer key = .absent := by
  unfold answer
  rw [Finmap.lookup_empty]
  refine if_neg ?_
  rintro (rfl | ⟨longer, hlonger, -⟩)
  · exact hkey rfl
  · exact Finmap.notMem_empty hlonger

theorem run_append (e : Encoding) (M : Entries) (calls more : List Call) :
    (M.run e (calls ++ more)).1 = ((M.run e calls).1.run e more).1 := by
  induction calls generalizing M with
  | nil => rfl
  | cons call calls ih => exact ih _

end Entries

/-! ### What is refused -/

theorem findIdx?_zero (key : Key) :
    key.findIdx? (· == 0) = if 0 ∈ key then some (key.idxOf 0) else none := by
  split_ifs with h0
  · exact List.findIdx?_eq_some_of_exists ⟨0, h0, rfl⟩
  · rw [List.findIdx?_eq_none_iff]
    intro x hx
    rw [beq_eq_false_iff_ne]
    rintro rfl
    exact h0 hx

theorem accepts_iff (e : Encoding) (value : Int32) : e.accepts value = true ↔
    ¬ (e = .reduced ∧ ¬ (0 ≤ value.toInt ∧ value.toInt < Encoding.unset)) := by
  cases e with
  | standard => simp [Encoding.accepts]
  | reduced => rw [Encoding.accepts_reduced, not_and, not_not, imp_iff_right rfl]

/-- **Which entries are refused, and why.** -/
theorem admit_eq (c : Config) (key : Key) (value : Int32) :
    c.admit key value = match refusal c.encoding key value with
      | some err => .error err
      | none => .ok () := by
  unfold Config.admit refusal Encoding.checkValue
  rw [findIdx?_zero]
  have haccepts := accepts_iff c.encoding value
  by_cases hempty : key = []
  · rw [if_pos hempty, if_pos hempty]
  · rw [if_neg hempty, if_neg hempty]
    by_cases h0 : 0 ∈ key
    · rw [if_pos h0, if_pos h0]
    · rw [if_neg h0, if_neg h0]
      dsimp only
      split_ifs <;> first | rfl | (exfalso; tauto)

theorem Trie.insert_eq (t : Trie) (key : Key) (value : Int32) : t.insert key value =
    match refusal t.config.encoding key value with
    | some err => .error err
    | none => .ok (⟨t.config, (t.pool.store t.config key value).1⟩,
        (t.pool.store t.config key value).2) := by
  unfold Trie.insert
  dsimp only
  rw [admit_eq]
  cases refusal t.config.encoding key value <;> rfl

/-- An entry that is not refused has a key and a value that can be stored. -/
theorem refusal_eq_none {e : Encoding} {key : Key} {value : Int32} (h : refusal e key value = none) :
    key ≠ [] ∧ 0 ∉ key ∧ e.accepts value = true := by
  unfold refusal at h
  split_ifs at h with hempty h0 hrange
  exact ⟨hempty, h0, (accepts_iff e value).mpr hrange⟩

end DoubleArrayTrie
