import DoubleArrayTrie.Proofs.Allocation
import DoubleArrayTrie.Proofs.Conflicts
import DoubleArrayTrie.Proofs.Footprint
import DoubleArrayTrie.Proofs.Programs.Searching

/-!
# No call on a trie faults

Every call is a program over the pool, and no program faults on the pool of a trie that calls have
made: no index is out of range, no number is too large for its field, and nothing is met that is
taken to be impossible. The programs give the results of the calls, and leave the pool that the calls
leave.

What is accessed is in use, except that the records of a block are written before it is.

* `Program.perform`: the calls that may change a trie.
* `Trie.Safe`: no call faults.
* `Trie.safe_run`: this is so after any calls on a new trie.
* `Trie.exists_not_inUse`: a call that accesses a block before it is in use.
-/

namespace DoubleArrayTrie

/-! ### The programs -/

namespace Program

/-- Stores an entry, if it is not refused. -/
def insert (rules : Rules) (key : Key) (value : Int32) : Program (Except Error (Option Int32)) :=
  match refusal rules.encoding key value with
  | some err => pure (.error err)
  | none => do
      let previous ← store rules key value
      pure (.ok previous)

def insertAll (rules : Rules) : List (Key × Int32) → Program (Except Error Unit)
  | [] => pure (.ok ())
  | (key, value) :: entries =>
      match refusal rules.encoding key value with
      | some err => pure (.error err)
      | none => do
          let _ ← store rules key value
          insertAll rules entries

def insertKeys (rules : Rules) (position : Nat) : List Key → Program (Except Error Unit)
  | [] => pure (.ok ())
  | key :: keys =>
      if 2147483647 < position then pure (.error (.valueOutOfRange 2147483647))
      else
        match refusal rules.encoding key (Int32.ofNat position) with
        | some err => pure (.error err)
        | none => do
            let _ ← store rules key (Int32.ofNat position)
            insertKeys rules (position + 1) keys

def perform (rules : Rules) : Call → Program Answer
  | .insert key value => do
      let result ← insert rules key value
      pure (.stored result)
  | .insertAll entries => do
      let result ← insertAll rules entries
      pure (.built result)
  | .insertKeys keys => do
      let result ← insertKeys rules 0 keys
      pure (.built result)
  | .erase key => do
      let answer ← erase rules key
      pure (.erased answer)

def performAll (rules : Rules) : List Call → Program (List Answer)
  | [] => pure []
  | call :: calls => do
      let answer ← perform rules call
      let answers ← performAll rules calls
      pure (answer :: answers)

end Program

/-! ### A new trie -/

/-- The slots of a new trie hold words. -/
theorem Pool.ready_empty (c : Config) : (Pool.empty c.encoding.rootBase).Ready c where
  capacity_le := by
    rw [Pool.capacity_empty]
    decide
  word i := by
    rw [slot_empty]
    by_cases hi : 1 ≤ i ∧ i ≤ 255
    · rw [if_pos hi]
      refine c.encoding.word_of_nonpos (Int.neg_nonpos_of_nonneg (Int.natCast_nonneg _)) ?_
      rw [Integer.fits_four]
      dsimp only
      split_ifs <;> omega
    rw [if_neg hi]
    split_ifs
    · cases c.encoding <;> exact (by decide)
    · exact c.encoding.word_of_nonpos le_rfl (by decide)

namespace Trie

variable {t : Trie} {M : Entries}

theorem ready_empty (c : Config) : (Trie.empty c).pool.Ready c := by
  rw [pool_empty]
  exact Pool.ready_empty c

/-! ### Calls that may change a trie -/

theorem capacity_le_insertAll (t : Trie) (entries : List (Key × Int32)) :
    t.pool.capacity ≤ (t.insertAll entries).1.pool.capacity := by
  obtain ⟨p', q', result, hp, -, rfl, hle⟩ :=
    (Pool.lockstep_le_capacity t.config t.pool.capacity).insertAll ⟨rfl, le_rfl⟩ entries
  rw [hp]
  exact hle

theorem capacity_le_insertKeys (t : Trie) (keys : List Key) (position : Nat) :
    t.pool.capacity ≤ (t.insertKeys keys position).1.pool.capacity := by
  obtain ⟨p', q', result, hp, -, rfl, hle⟩ :=
    (Pool.lockstep_le_capacity t.config t.pool.capacity).insertKeys ⟨rfl, le_rfl⟩ keys position
  rw [hp]
  exact hle

theorem capacity_le_run (t : Trie) (calls : List Call) :
    t.pool.capacity ≤ (t.run calls).1.pool.capacity :=
  ((Pool.lockstep_le_capacity t.config t.pool.capacity).kept_run le_rfl calls)

section

variable (h : t.Holds M) (hready : t.pool.Ready t.config) (hmax : t.config.maxTrial ≤ 2147483647)
include h hready

theorem run_erase (key : Key) :
    (Program.erase t.config.rules key).run t.config t.pool =
      some ((t.erase key).1.pool, (t.erase key).2) := by
  obtain ⟨T, off, hlays, -⟩ := h
  exact hlays.run_erase hready key

include hmax

/-- An entry that is not refused is stored without a fault, unless the arrays would get too large. -/
theorem gives_store {key : Key} {value : Int32}
    (hrefusal : refusal t.config.encoding key value = none) :
    (Program.store t.config.rules key value).Gives t.config t.pool
      (t.pool.store t.config key value) := by
  obtain ⟨T, off, hlays, -⟩ := h
  obtain ⟨hkey, h0, hv⟩ := refusal_eq_none hrefusal
  exact hlays.gives_store hready hmax hkey h0 hv

theorem gives_insertAll (entries : List (Key × Int32)) :
    (Program.insertAll t.config.rules entries).Gives t.config t.pool
      ((t.insertAll entries).1.pool, (t.insertAll entries).2) := by
  induction entries generalizing t M with
  | nil => exact Program.gives_of_run rfl hready.capacity_le
  | cons entry entries ih =>
    obtain ⟨key, value⟩ := entry
    unfold Trie.insertAll Program.insertAll
    rw [admit_eq, Config.encoding_rules]
    cases hrefusal : refusal t.config.encoding key value with
    | some err => exact Program.gives_of_run rfl hready.capacity_le
    | none =>
      exact (gives_store h hready hmax hrefusal).bind (capacity_le_insertAll ⟨t.config, _⟩ entries)
        fun hrun => ih (h.store hrefusal).1 (hready.run hrun) hmax

theorem gives_insertKeys (keys : List Key) (position : Nat) :
    (Program.insertKeys t.config.rules position keys).Gives t.config t.pool
      ((t.insertKeys keys position).1.pool, (t.insertKeys keys position).2) := by
  induction keys generalizing t M position with
  | nil => exact Program.gives_of_run rfl hready.capacity_le
  | cons key keys ih =>
    unfold Trie.insertKeys Program.insertKeys
    by_cases hposition : 2147483647 < position
    · rw [if_pos hposition, if_pos hposition]
      exact Program.gives_of_run rfl hready.capacity_le
    rw [if_neg hposition, if_neg hposition, admit_eq, Config.encoding_rules]
    cases hrefusal : refusal t.config.encoding key (Int32.ofNat position) with
    | some err => exact Program.gives_of_run rfl hready.capacity_le
    | none =>
      exact (gives_store h hready hmax hrefusal).bind
        (capacity_le_insertKeys ⟨t.config, _⟩ keys (position + 1)) fun hrun =>
        ih (h.store hrefusal).1 (hready.run hrun) hmax (position + 1)

/-- **A call does not fault**, unless the trie has to grow too large for it. Then it does. -/
theorem gives_perform (call : Call) : (Program.perform t.config.rules call).Gives t.config t.pool
    ((t.perform call).1.pool, (t.perform call).2) := by
  have hdone : ∀ {α : Type} {x : Program α} {y : Pool × α} (f : α → Answer),
      x.Gives t.config t.pool y → (do let a ← x; pure (f a) : Program Answer).Gives t.config t.pool
        (y.1, f y.2) := fun f hx => hx.bind_run rfl fun _ => rfl
  cases call with
  | insert key value =>
    unfold Trie.perform Program.perform Program.insert
    dsimp only
    rw [insert_eq, Config.encoding_rules]
    cases hrefusal : refusal t.config.encoding key value with
    | some err => exact Program.gives_of_run rfl hready.capacity_le
    | none =>
      refine hdone .stored (y := (_, .ok (t.pool.store t.config key value).2)) ?_
      exact (gives_store h hready hmax hrefusal).bind_run rfl fun _ => rfl
  | insertAll entries => exact hdone .built (gives_insertAll h hready hmax entries)
  | insertKeys keys => exact hdone .built (gives_insertKeys h hready hmax keys 0)
  | erase key =>
    refine hdone .erased (Program.gives_of_run (run_erase h hready key) ?_)
    exact (Pool.capacity_erase ..).trans_le hready.capacity_le

theorem run_perform {call : Call} (hcap : (t.perform call).1.pool.capacity ≤ Access.maxCapacity) :
    (Program.perform t.config.rules call).run t.config t.pool =
      some ((t.perform call).1.pool, (t.perform call).2) := (gives_perform h hready hmax call).run hcap

/-- Nor do any calls. -/
theorem gives_performAll (calls : List Call) : (Program.performAll t.config.rules calls).Gives
    t.config t.pool ((t.run calls).1.pool, (t.run calls).2) := by
  induction calls generalizing t M with
  | nil => exact Program.gives_of_run rfl hready.capacity_le
  | cons call calls ih =>
    obtain ⟨hholds, hconfig, -⟩ := h.perform call
    refine (gives_perform h hready hmax call).bind (capacity_le_run _ calls) fun hrun => ?_
    have hrest := ih hholds (by rw [hconfig]; exact hready.run hrun) (by rwa [hconfig])
    rw [hconfig] at hrest
    exact hrest.bind_run rfl fun _ => rfl

/-- So the slots hold words after any calls. -/
theorem ready_run {calls : List Call}
    (hcap : (t.run calls).1.pool.capacity ≤ Access.maxCapacity) :
    (t.run calls).1.pool.Ready t.config :=
  hready.run ((gives_performAll h hready hmax calls).run hcap)

end

/-! ### All calls -/

/-- No call on the trie faults, whatever the bytes are, and each gives its result: no index is out of
range, no number is too large for its field, and nothing is met that is taken to be impossible. A call
that may change the trie must not need too many slots. -/
structure Safe (t : Trie) : Prop where
  perform : ∀ call, (t.perform call).1.pool.capacity ≤ Access.maxCapacity →
    (Program.perform t.config.rules call).run t.config t.pool =
      some ((t.perform call).1.pool, (t.perform call).2)
  find : ∀ key, (Program.find t.config.encoding key).run t.config t.pool =
    some (t.pool, t.find key)
  get? : ∀ key, (Program.get? t.config.encoding key).run t.config t.pool =
    some (t.pool, t.get? key)
  predict : ∀ stem, (Program.predict t.config.encoding stem).run t.config t.pool =
    some (t.pool, t.predict stem)
  commonPrefixes : ∀ key, (Program.commonPrefixes t.config.encoding key).run t.config t.pool =
    some (t.pool, t.commonPrefixes key)
  scan : ∀ text, (Program.scan t.config.encoding text).run t.config t.pool =
    some (t.pool, t.scan text)
  entries : ∃ es, t.entries = .ok es ∧
    (Program.entries t.config.encoding).run t.config t.pool = some (t.pool, es)
  /-- The bytes of what a query found are read off its node. -/
  suffix : ∀ m key, t.get? key = some m ∨ m ∈ t.predict key ∨ m ∈ t.commonPrefixes key →
    ∃ bytes, t.suffixOf m = .ok bytes ∧
      (Program.suffix t.config.encoding m.node m.length).run t.config t.pool =
        some (t.pool, bytes)
  /-- Where a call makes the arrays grow, fresh records are written behind the others. -/
  grow : ∀ p : Pool, p.Enlarged t.config (p.grow t.config)

theorem Holds.safe (h : t.Holds M) (hready : t.pool.Ready t.config)
    (hmax : t.config.maxTrial ≤ 2147483647) : t.Safe := by
  obtain ⟨T, off, hlays, hholds⟩ := id h
  refine ⟨fun call => run_perform h hready hmax, hlays.run_find hready, fun key =>
    (run_get? hlays hready key).1, fun stem => (run_predict hlays hready hholds stem).1, fun key =>
    (run_commonPrefixes hlays hready key).1, run_scan hlays hready,
    run_entries hlays hready hholds, fun m key hm => ?_, Pool.enlarged_grow _⟩
  have hspelled : Spelled T off m := by
    rcases hm with hm | hm | hm
    · exact (run_get? hlays hready key).2 m hm
    · exact (run_predict hlays hready hholds key).2 m hm
    · exact (run_commonPrefixes hlays hready key).2 m hm
  exact Spelled.run hlays hready hspelled

/-- Calls on a new trie do not fault, unless it has to grow too large for them. Then they do. -/
theorem gives_of_create {e : Encoding} {o : Options} (h : Trie.create e o = .ok t)
    (hmax : o.maxTrial ≤ 2147483647) (calls : List Call) :
    (Program.performAll t.config.rules calls).Gives t.config t.pool
      ((t.run calls).1.pool, (t.run calls).2) := by
  obtain ⟨ho, rfl⟩ := validate_of_create h
  exact gives_performAll (t := Trie.empty { o with encoding := e })
    (holds_empty (create_eq ho e).2) (ready_empty _) hmax calls

/-- The slots of a trie that calls have made hold words. -/
theorem ready_of_create {e : Encoding} {o : Options} (h : Trie.create e o = .ok t)
    (hmax : o.maxTrial ≤ 2147483647) (calls : List Call)
    (hcap : (t.run calls).1.pool.capacity ≤ Access.maxCapacity) :
    (t.run calls).1.pool.Ready (t.run calls).1.config := by
  obtain ⟨ho, rfl⟩ := validate_of_create h
  rw [(run_holds ho e calls).2.1]
  exact ready_run (t := Trie.empty { o with encoding := e }) (holds_empty (create_eq ho e).2)
    (ready_empty _) hmax hcap

/-- **No call faults on a trie that calls have made**, whatever the encoding and the valid options,
while there are not too many slots. -/
theorem safe_run {e : Encoding} {o : Options} (h : Trie.create e o = .ok t)
    (hmax : o.maxTrial ≤ 2147483647) (calls : List Call)
    (hcap : (t.run calls).1.pool.capacity ≤ Access.maxCapacity) : (t.run calls).1.Safe := by
  have hready := ready_of_create h hmax calls hcap
  obtain ⟨ho, rfl⟩ := validate_of_create h
  obtain ⟨hholds, hconfig, -⟩ := run_holds ho e calls
  exact hholds.safe hready (by rwa [hconfig])

/-- The first call puts a block to use, and the second moves a node that wants the slot of its own
child. -/
theorem safe_run_standard : ∃ t, create .standard {} = .ok t ∧
    blockSize < (t.run [.insert [97, 97] 1]).1.pool.capacity ∧
    Pool.Asks t.config (t.run [.insert [97, 97] 1]).1.pool 0 [97, 97, 1]
      (t.run [.insert [97, 97] 1]).1.pool 256 1 ∧
    (t.run [.insert [97, 97] 1, .insert [97, 97, 1] 2, .erase [97, 97]]).1.Safe := by
  have hcreate := (create_eq (o := {}) rfl .standard).1
  exact ⟨_, hcreate, blockSize_lt_capacity_run hcreate [97, 97] (by decide) (by decide),
    asks_own_slot.1, safe_run hcreate (by decide) _
      ((capacity_run_of_create hcreate _).trans (by decide))⟩

/-! ### Before a block is in use -/

end Trie

/-- The slot or the block that is accessed is in use. -/
def Access.InUse (p : Pool) : Access → Prop
  | slot i | writeSlot i _ => i < p.size
  | block b | writeBlock b _ | writeHead _ b => b < p.blocksInUse
  | bound _ | head _ | size | writeBound .. | reserve | log _ | member .. => True

instance (p : Pool) : (x : Access) → Decidable (x.InUse p)
  | .slot i | .writeSlot i _ => inferInstanceAs (Decidable (i < p.size))
  | .block b | .writeBlock b _ | .writeHead _ b => inferInstanceAs (Decidable (b < p.blocksInUse))
  | .bound _ | .head _ | .size | .writeBound .. | .reserve | .log _ | .member .. =>
    inferInstanceAs (Decidable True)

/-- What is accessed while a block is opened is in use already. -/
def Opening.InUse (c : Config) : Opening → Pool → Prop
  | done, _ | fault, _ => True
  | access x next, p => x.InUse p ∧ InUse c (next (x.reply p)) (x.effect c p)

instance Opening.decidableInUse (c : Config) :
    (body : Opening) → (p : Pool) → Decidable (body.InUse c p)
  | done, _ | fault, _ => inferInstanceAs (Decidable True)
  | access x next, p =>
    have := decidableInUse c (next (x.reply p)) (x.effect c p)
    inferInstanceAs (Decidable (_ ∧ _))

/-- Whatever a program accesses is in use at that moment, also while a block is opened. -/
def Program.InUse {α : Type} (c : Config) : Program α → Pool → Prop
  | done _, _ | fault, _ => True
  | access x next, p => x.InUse p ∧ InUse c (next (x.reply p)) (x.effect c p)
  | opening body next, p => body.InUse c p ∧ ∀ q ∈ body.run c p, InUse c next q.extend

instance Program.decidableInUse {α : Type} (c : Config) :
    (x : Program α) → (p : Pool) → Decidable (x.InUse c p)
  | done _, _ | fault, _ => inferInstanceAs (Decidable True)
  | access x next, p =>
    have := decidableInUse c (next (x.reply p)) (x.effect c p)
    inferInstanceAs (Decidable (_ ∧ _))
  | opening _ next, _ =>
    have : DecidablePred fun q : Pool => next.InUse c q.extend := fun q =>
      decidableInUse c next q.extend
    inferInstanceAs (Decidable (_ ∧ _))

/-- **Not all that is accessed is in use**: the first key of two bytes needs a block, whose record is
written while there is no more than block `0`. -/
theorem Trie.exists_not_inUse : ∃ t, create .standard {} = .ok t ∧
    (t.run [.insert [97, 98] 1]).1.pool.capacity ≤ Access.maxCapacity ∧
    ¬ (Program.perform t.config.rules (.insert [97, 98] 1)).InUse t.config t.pool := by
  have hcreate := (create_eq (o := {}) rfl .standard).1
  refine ⟨_, hcreate, (capacity_run_of_create hcreate _).trans (by decide), ?_⟩
  decide +kernel

end DoubleArrayTrie
