import DoubleArrayTrie.Trie.Query
import DoubleArrayTrie.Proofs.Calls
import DoubleArrayTrie.Proofs.Pool.Placing
import DoubleArrayTrie.Proofs.Trie.Lockstep

/-!
# Calls in lockstep

Two tries whose pools are in lockstep get the same calls. Then their pools stay in lockstep and all
calls return the same. Three relations of this kind are put to use:

* `Trie.Alike.run`: where the records of a trie live does not matter.
* `Trie.reject_run_le`: no call raises a bound.
* `Trie.capacity_run`: the capacity never goes down, and while it stays the same the records stay where
  they are.

What is only read depends on the slots alone: `Trie.SameSlots.find_eq`, `Trie.SameSlots.entries_eq`.
-/

namespace DoubleArrayTrie

namespace Pool.Lockstep

variable {c : Config} {R : Pool → Pool → Prop} {p q : Pool}

theorem insertAll (h : Lockstep c R) (hR : R p q) (entries : List (Key × Int32)) :
    ∃ p' q' result, Trie.insertAll ⟨c, p⟩ entries = (⟨c, p'⟩, result) ∧
      Trie.insertAll ⟨c, q⟩ entries = (⟨c, q'⟩, result) ∧ R p' q' := by
  induction entries generalizing p q with
  | nil => exact ⟨p, q, _, rfl, rfl, hR⟩
  | cons entry entries ih =>
    obtain ⟨key, value⟩ := entry
    unfold Trie.insertAll
    dsimp only
    cases c.admit key value with
    | error err => exact ⟨p, q, _, rfl, rfl, hR⟩
    | ok => exact ih (h.store hR key value).1

theorem insertKeys (h : Lockstep c R) (hR : R p q) (keys : List Key) (position : Nat) :
    ∃ p' q' result, Trie.insertKeys ⟨c, p⟩ keys position = (⟨c, p'⟩, result) ∧
      Trie.insertKeys ⟨c, q⟩ keys position = (⟨c, q'⟩, result) ∧ R p' q' := by
  induction keys generalizing p q position with
  | nil => exact ⟨p, q, _, rfl, rfl, hR⟩
  | cons key keys ih =>
    unfold Trie.insertKeys
    dsimp only
    split_ifs with hposition
    · exact ⟨p, q, _, rfl, rfl, hR⟩
    · cases c.admit key (Int32.ofNat position) with
      | error err => exact ⟨p, q, _, rfl, rfl, hR⟩
      | ok => exact ih (h.store hR key _).1 (position + 1)

/-- **A call keeps the lockstep**, and returns the same. -/
theorem perform (h : Lockstep c R) (hR : R p q) (call : Call) :
    ∃ p' q' answer, Trie.perform ⟨c, p⟩ call = (⟨c, p'⟩, answer) ∧
      Trie.perform ⟨c, q⟩ call = (⟨c, q'⟩, answer) ∧ R p' q' := by
  cases call with
  | insert key value =>
    obtain ⟨hstore, hprevious⟩ := h.store hR key value
    unfold Trie.perform
    dsimp only
    rw [Trie.insert_eq, Trie.insert_eq]
    cases refusal c.encoding key value with
    | some err => exact ⟨p, q, _, rfl, rfl, hR⟩
    | none => exact ⟨_, _, _, rfl, by rw [hprevious], hstore⟩
  | insertAll entries =>
    obtain ⟨p', q', result, hp, hq, hR'⟩ := h.insertAll hR entries
    refine ⟨p', q', .built result, ?_, ?_, hR'⟩
    · unfold Trie.perform
      dsimp only
      rw [hp]
    · unfold Trie.perform
      dsimp only
      rw [hq]
  | insertKeys keys =>
    obtain ⟨p', q', result, hp, hq, hR'⟩ := h.insertKeys hR keys 0
    refine ⟨p', q', .built result, ?_, ?_, hR'⟩
    · unfold Trie.perform
      dsimp only
      rw [hp]
    · unfold Trie.perform
      dsimp only
      rw [hq]
  | erase key =>
    obtain ⟨herase, hanswer⟩ := h.erase hR key
    exact ⟨_, _, _, rfl, by unfold Trie.perform Trie.erase; rw [hanswer], herase⟩

/-- So do several calls. -/
theorem run (h : Lockstep c R) {t u : Trie} (ht : t.config = c) (hu : u.config = c)
    (hR : R t.pool u.pool) (calls : List Call) :
    (t.run calls).1.config = c ∧ (u.run calls).1.config = c ∧
      R (t.run calls).1.pool (u.run calls).1.pool ∧ (t.run calls).2 = (u.run calls).2 := by
  induction calls generalizing t u with
  | nil => exact ⟨ht, hu, hR, rfl⟩
  | cons call calls ih =>
    obtain ⟨c', p⟩ := t
    obtain ⟨c'', q⟩ := u
    obtain rfl : c' = c := ht
    obtain rfl : c'' = c' := hu
    obtain ⟨p', q', answer, hp, hq, hR'⟩ := h.perform hR call
    obtain ⟨hconfig, hconfig', hrun, hanswers⟩ := ih (t := ⟨_, p'⟩) (u := ⟨_, q'⟩) rfl rfl hR'
    unfold Trie.run
    rw [hp, hq]
    exact ⟨hconfig, hconfig', hrun, congrArg (answer :: ·) hanswers⟩

/-- A property that all writes keep is so after any calls. -/
theorem kept_run {P : Pool → Prop} {t : Trie} (h : Lockstep t.config fun p q => p = q ∧ P p)
    (ht : P t.pool) (calls : List Call) : P (t.run calls).1.pool := by
  obtain ⟨-, -, ⟨-, hkept⟩, -⟩ := h.run rfl rfl ⟨rfl, ht⟩ calls
  exact hkept

end Pool.Lockstep

/-! ### Where the records live -/

namespace Pool

theorem copy_lowerReject (p : Pool) (k n : Nat) :
    (p.lowerReject k n).copy = p.copy.lowerReject k n := by
  unfold lowerReject
  split_ifs with h h' h'
  · rfl
  · exact absurd h h'
  · exact absurd h' h
  · rfl

theorem copy_grow (c : Config) (p : Pool) : (p.grow c).copy = (p.copy.grow c).copy := by
  obtain ⟨b, j, h⟩ := grow_eq c p
  obtain ⟨b', j', h'⟩ := grow_eq c p.copy
  rw [h, h']
  rfl

/-- What operations do with records does not depend on where these live. -/
theorem lockstep_alike (c : Config) : Lockstep c Alike where
  alike h := h
  modifySlot i f h := h.congr (·.modifySlot i f)
  modifyBlock b f h := h.congr (·.modifyBlock b f)
  setHead r b h := by
    cases r
    · exact h.congr (·.setHead .opened b)
    · exact h.congr (·.setHead .closed b)
    · exact h.congr (·.setHead .full b)
  lowerReject {p q} k n h := by
    unfold Alike
    rw [copy_lowerReject, copy_lowerReject, h]
  extend n h := h.congr fun p : Pool => ({ p with size := n } : Pool)
  log _ h := h
  grow {p q} h := by
    unfold Alike
    rw [copy_grow, copy_grow c q, h]

namespace SameSlots

variable {c : Config} {p q : Pool}

theorem descend_eq (h : p.SameSlots q) (fuel : Nat) (l : UInt8) (n depth : Nat) :
    p.descend c fuel l n depth = q.descend c fuel l n depth := by
  induction fuel generalizing l n depth with
  | zero => rfl
  | succ fuel ih => simp only [descend, h.offsetOf_eq, h.slot_eq, ih]

theorem firstKey?_eq (h : p.SameSlots q) (n depth : Nat) :
    p.firstKey? c n depth = q.firstKey? c n depth := by
  simp only [firstKey?, h.slot_eq, h.offsetOf_eq, h.capacity_eq, h.descend_eq, h.valueSlot_eq]

theorem climb_eq (h : p.SameSlots q) (root depth : Nat) (l : UInt8) (n : Nat) :
    p.climb root depth l n = q.climb root depth l n := by
  induction depth generalizing l n with
  | zero => rfl
  | succ depth ih => simp only [climb, h.slot_eq, ih]

theorem nextKey?_eq (h : p.SameSlots q) (root : Nat) (k : Cursor) :
    p.nextKey? c root k = q.nextKey? c root k := by
  simp only [nextKey?, h.slot_eq, h.offsetOf_eq, h.climb_eq, h.firstKey?_eq]

theorem slot?_eq (h : p.SameSlots q) (i : Int) : p.slot? i = q.slot? i := by
  unfold slot?
  rw [h]

theorem suffixOnto_eq (h : p.SameSlots q) (length n : Nat) (node : Int) (bytes : Key) :
    p.suffixOnto c length n node bytes = q.suffixOnto c length n node bytes := by
  induction n generalizing node bytes with
  | zero => rfl
  | succ n ih => simp only [suffixOnto, h.slot?_eq, ih]

end SameSlots

end Pool

namespace Trie

/-- The tries have the same configuration and the same slots. -/
def SameSlots (t u : Trie) : Prop := t.config = u.config ∧ t.pool.SameSlots u.pool

namespace SameSlots

variable {t u : Trie}

theorem find_eq (h : t.SameSlots u) (key : Key) : t.find key = u.find key := by
  unfold Trie.find
  rw [h.1, h.2.find_eq]

theorem next_eq (h : t.SameSlots u) : Predictor.next t = Predictor.next u := by
  funext s
  unfold Predictor.next
  simp only [h.1, h.2.nextKey?_eq]

theorem predictor_eq (h : t.SameSlots u) (stem : Key) : t.predictor stem = u.predictor stem := by
  unfold Trie.predictor
  rw [h.1, h.2.walk_eq]
  simp only [h.2.firstKey?_eq]

theorem predict_eq (h : t.SameSlots u) (stem : Key) : t.predict stem = u.predict stem := by
  unfold Trie.predict
  rw [h.next_eq, h.predictor_eq, h.2.capacity_eq]

theorem suffix_eq (h : t.SameSlots u) (node : Int) (length : Nat) (memory : Memory) :
    t.suffix node length memory = u.suffix node length memory := by
  unfold Trie.suffix Pool.suffix
  rw [h.1, h.2.suffixOnto_eq]

theorem suffixOf_eq (h : t.SameSlots u) : t.suffixOf = u.suffixOf := by
  funext m
  unfold Trie.suffixOf Pool.suffix
  rw [h.1, h.2.suffixOnto_eq]

/-- Tries with the same slots list the same entries. -/
theorem entries_eq (h : t.SameSlots u) : t.entries = u.entries := by
  unfold Trie.entries
  rw [h.predict_eq, h.suffixOf_eq]

theorem keys_eq (h : t.SameSlots u) : t.keys = u.keys := by
  unfold Trie.keys
  rw [h.predict_eq, h.suffixOf_eq]

theorem values_eq (h : t.SameSlots u) : t.values = u.values := by
  unfold Trie.values
  rw [h.predict_eq]

end SameSlots

/-- The tries have the same configuration and the same records. -/
def Alike (t u : Trie) : Prop := t.config = u.config ∧ t.pool.Alike u.pool

namespace Alike

variable {t u : Trie}

theorem slots (h : t.Alike u) : t.SameSlots u := ⟨h.1, h.2.slots⟩

theorem trans {v : Trie} (h : t.Alike u) (hv : u.Alike v) : t.Alike v :=
  ⟨h.1.trans hv.1, h.2.trans hv.2⟩

/-- Tries with the same records do the same on calls, and return the same. -/
theorem run (h : t.Alike u) (calls : List Call) :
    (t.run calls).1.Alike (u.run calls).1 ∧ (t.run calls).2 = (u.run calls).2 := by
  obtain ⟨ht, hu, halike, hanswers⟩ := (Pool.lockstep_alike t.config).run rfl h.1.symm h.2 calls
  exact ⟨⟨ht.trans hu.symm, halike⟩, hanswers⟩

end Alike

end Trie

/-! ### Bounds -/

/-- No write raises a bound, and none makes it negative. -/
theorem Pool.lockstep_reject (c : Config) (k : Nat) (x : Int) :
    Lockstep c fun p q => p = q ∧ 0 ≤ p.reject k ∧ p.reject k ≤ x := by
  refine .of_kept (fun _ _ _ h => h) (fun _ _ _ h => h) ?_ ?_ (fun _ _ h => h) (fun _ _ h => h) ?_
  · intro p r b h
    cases r <;> exact h
  · intro p j n h
    rw [reject_lowerReject]
    split_ifs with hn
    · exact ⟨Int.natCast_nonneg n, hn.2.2.le.trans h.2⟩
    · exact h
  · intro p h
    obtain ⟨b, j, hgrow⟩ := grow_eq c p
    rw [hgrow]
    exact h

/-- **No call raises a bound.** -/
theorem Trie.reject_run_le {t : Trie} {k : Nat} (h : 0 ≤ t.pool.reject k) (calls : List Call) :
    0 ≤ (t.run calls).1.pool.reject k ∧ (t.run calls).1.pool.reject k ≤ t.pool.reject k :=
  (Pool.lockstep_reject t.config k (t.pool.reject k)).kept_run ⟨h, le_rfl⟩ calls

/-! ### Growth -/

theorem Growth.step_pos {c : Config} (hc : c.fault? = none) {n : Nat} (hn : 0 < n) :
    0 < c.growth.step n := by
  cases hg : c.growth with
  | doubling => exact hn
  | linear blocks =>
    have hblocks : blocks ≠ 0 := by
      rintro rfl
      unfold Options.fault? at hc
      rw [hg] at hc
      split_ifs at hc
      simp at hc
    unfold Growth.step
    dsimp only
    omega

/-- No write makes the arrays smaller, and while they are as large as they were the records stay
where they were. -/
theorem Pool.lockstep_capacity {c : Config} (hc : c.fault? = none) {n : Nat} (hn : 0 < n)
    (x : Backing) :
    Lockstep c fun p q => p = q ∧ n ≤ p.capacity ∧ (p.capacity = n → p.backing = x) := by
  refine .of_kept ?_ (fun _ _ _ h => h) ?_ ?_ (fun _ _ h => h) (fun _ _ h => h) ?_
  · intro p i f h
    rw [capacity_modifySlot]
    exact h
  · intro p r b h
    cases r <;> exact h
  · intro p k n h
    unfold lowerReject
    split_ifs
    · exact h
    · exact h
  · intro p h
    have hstep := Growth.step_pos hc (lt_of_lt_of_le hn h.1)
    rw [capacity_grow]
    exact ⟨by omega, fun hsame => by omega⟩

/-- **The arrays never get smaller, and while they do not grow the records stay where they are.** -/
theorem Trie.capacity_run {t : Trie} (ht : t.config.fault? = none) (hpos : 0 < t.pool.capacity)
    (calls : List Call) : t.pool.capacity ≤ (t.run calls).1.pool.capacity ∧
      ((t.run calls).1.pool.capacity = t.pool.capacity →
        (t.run calls).1.pool.backing = t.pool.backing) :=
  (Pool.lockstep_capacity ht hpos t.pool.backing).kept_run ⟨le_rfl, fun _ => rfl⟩ calls

end DoubleArrayTrie
