import DoubleArrayTrie.Proofs.Answers
import DoubleArrayTrie.Proofs.Demands
import DoubleArrayTrie.Proofs.Programs.Loops
import DoubleArrayTrie.Proofs.Safety
import DoubleArrayTrie.Proofs.SingleSlots

/-!
# Every walk ends

All walks of a trie follow links that stand in the arrays, and nothing counts their steps. The chains,
the free lists, the rings and the ways between a node and the root bound them all the same, also while
these are changed.

A loop that repeats while something is the case takes one round more than it has steps: in the last one
it only sees that it is at its end.

* `Pool.Searches`: the searches for room, in a pool whose books are in order.
* `Trie.Walks`: the loops of the calls on a trie and the enumeration of its keys.
* `Trie.walks_run`: both are so after any calls on a new trie, and in the middle of them.
-/

namespace DoubleArrayTrie

open Program (Rounds)

/-! ### Searches for room -/

namespace Pool

/-- A search of block `b` comes to each of its free slots at most once. -/
def ScansOnce (c : Config) (p : Pool) (labels : List UInt8) (b : Nat) : Prop :=
  ∃ es : List Nat, Rounds c (Program.scanRound labels (p.block b).head.toNat) p (p.block b).head.toNat
      (es.map fun e => (p, e)) p ((p.freeList b).find? fun e => p.fits e labels) ∧
    es.Nodup ∧ ∀ e ∈ es, p.Free e ∧ blockOf e = b

/-- The searches for room end in time. -/
structure Searches (c : Config) (p : Pool) : Prop where
  scan : ∀ labels b, p.OnRing .opened b → p.ScansOnce c labels b
  /-- A search along the open ring comes to each of its blocks at most once, and not to block `0`. It
  changes the blocks on its way, and goes on like that. -/
  search : ∀ labels : List UInt8, labels.Nodup → 2 ≤ labels.length → p.openHead ≠ 0 →
    let last := (p.block p.openHead).prev
    let found := p.searchOpen c labels last p.visitBound p.openHead
    ∃ rs, Rounds c (Program.searchRound c.maxTrial labels last) p p.openHead rs found.1 found.2 ∧
      rs.length ≤ p.size / 256 - 1 ∧ (rs.map Prod.snd).Nodup ∧
      ∀ x ∈ rs, x.1.ScansOnce c labels x.2

variable {c : Config} {p : Pool} {b n d : Nat} {labels : List UInt8} {T : Outline} {off : Trail → Nat}
  {s t : Trail} {l : UInt8} {key : Key} {v : Int32} {k : Cursor}

theorem WellKept.scansOnce (h : p.WellKept c) (hb : p.OnOpen c b)
    (hsize : p.size ≤ Access.maxCapacity) (labels : List UInt8) : p.ScansOnce c labels b := by
  obtain ⟨l, hl⟩ := h.freeLists b hb.2.1
  have hfree := (Block.ring_eq_opened.mp hb.2.2).1
  rcases l with _ | ⟨a, t⟩
  · exact absurd hl.free_eq hfree
  have ha : (p.block b).head.toNat = a := by rw [hl.head_eq a rfl, Int.toNat_natCast]
  obtain ⟨es, hes, hrounds⟩ := h.rounds_scanFree (Circular.cons_iff.mp hl.circular)
    (fun x hx => hl.threaded hx hsize) (List.nodup_cons.mp hl.nodup).1 labels
  unfold ScansOnce
  rw [hl.freeList_eq, ha]
  exact ⟨es, hrounds, hl.nodup.sublist hes.sublist,
    fun e he => (hl.mem_iff e).mp (hes.subset he)⟩

theorem WellKept.searches (h : p.WellKept c) (hsize : p.size ≤ Access.maxCapacity)
    (hmax : c.maxTrial ≤ 2147483647) : p.Searches c where
  scan labels b hb := h.scansOnce (h.onRing_iff.mp hb) hsize labels
  search labels hlabels h2 hopen := by
    obtain ⟨t, last, -, hprev, hahead⟩ := h.ahead hopen
    obtain ⟨hlt, hbound⟩ := hahead.length_lt
    rw [hprev]
    obtain ⟨rs, hrs, hkept, hrounds⟩ :=
      hahead.rounds_searchOpen h2 (length_le_of_nodup hlabels) hmax hsize hbound
    refine ⟨rs, hrounds, ?_, hahead.nodup.sublist hrs.sublist, fun x hx => ?_⟩
    · have hle := hrs.length_le
      rw [List.length_map, List.length_cons] at hle
      unfold blocksInUse blockSize at hlt
      omega
    · obtain ⟨hx, hxb, hxsize⟩ := hkept x hx
      exact hx.scansOnce hxb (hxsize ▸ hsize) labels

/-! ### Ways up and down -/

/-- Where the way down from a node starts. -/
def firstLabel (c : Config) (p : Pool) (n : Nat) : UInt8 :=
  if n = 0 then (p.slot (p.offsetOf c 0 ^^^ (p.slot n).child.toNat)).sibling else (p.slot n).child

/-- Where the way up from a node with a value starts. -/
def laterLabel (c : Config) (p : Pool) (n : Nat) : UInt8 :=
  if c.encoding.holdsValue (p.slot n).base then 0 else (p.slot (p.offsetOf c n)).sibling

namespace Lays

variable (h : p.Lays c T off) (hready : p.Ready c)
include h hready

/-- **The way up from a key that is erased** has at most one slot more than the key has bytes, and ends
below the root. -/
theorem rounds_prune (hn : p.walk c 0 key = some n) (hv : p.valueAt c n = .found v) :
    ∃ rs, Rounds c (Program.pruneRound c.rules) p (p.valueSlot c n) rs (p.erase c key).1 () ∧
      rs.length ≤ key.length + 1 ∧ ∀ x ∈ rs, x.2 ≠ 0 := by
  have herase : (p.erase c key).1 = p.prune c (key.length + 1) (p.valueSlot c n) := by
    unfold Pool.erase
    rw [hn]
    dsimp only
    rw [hv]
  obtain ⟨h0, hmem, rfl⟩ := h.walk_root.mp hn
  rw [← List.mem_reverse] at h0
  rw [h.valueAt_eq hmem (Outline.ne_terminal h0)] at hv
  cases hw : T.value? c key.reverse with
  | none => simp [hw, Lookup.ofValue] at hv
  | some w =>
    obtain ⟨t, hslot, ht, ht0, hleaf, hlen, -⟩ := h.exists_valueSlot hmem hw
    obtain ⟨l, u, rfl⟩ := List.exists_cons_of_ne_nil ht0
    rw [List.length_reverse] at hlen
    have hrun := (h.frayed ht hleaf).run_prune hready hlen
    rw [Program.prune_eq_loop] at hrun
    obtain ⟨rs, hrs, hle⟩ := Program.exists_rounds hrun
    rw [herase, hslot]
    exact ⟨rs, hrs, hle, Program.ne_zero_of_rounds hrs⟩

/-- **The way down from a node** ends at the node of a stored key, or at the root. -/
theorem rounds_descend {M : Trail → Option Int32} (hM : T.Holds c [] M) (ht : T.Mem t) (h0 : 0 ∉ t)
    (hd : d ≤ t.length) : ∃ rs, Rounds c (Program.descendRound c.encoding) p
        (p.firstLabel c (locate off t), locate off t, d) rs p
        (p.descend c p.capacity (p.firstLabel c (locate off t)) (locate off t) d) ∧
      (t = [] ∧ rs.length = 1 ∨
        ∃ u, 0 ∉ u ∧ T.Mem u ∧ (T.value? c u).isSome ∧ t.length + rs.length = u.length + 1) := by
  have hlabel : p.firstLabel c (locate off t) = (T.kids t).headD 0 := h.firstLabel_eq ht
  obtain ⟨u, hsuffix, hu, hu0, hend, hdown, hrun⟩ := h.run_descend hready (n := p.size)
    (m := p.capacity) ht h0
    (fun u hu => (h.length_lt_size hu).trans_le (Nat.le_add_left ..))
    (fun u hu => ((h.length_lt_size hu).trans_le h.draws.kept.size_le).trans_le
      (Nat.le_add_left ..)) hd
  rw [Program.descend_eq_loop] at hrun
  obtain ⟨rs, hrs, -⟩ := Program.exists_rounds hrun
  have hlength := Program.length_descendRound hrs
  have hle := hsuffix.length_le
  dsimp only at hlength
  rw [hlabel, hdown]
  refine ⟨rs, hrs, ?_⟩
  by_cases hroot : u = [] ∧ T.kids u = []
  · obtain ⟨rfl, -⟩ := hroot
    obtain rfl := List.suffix_nil.mp hsuffix
    exact .inl ⟨rfl, by simp at hlength; omega⟩
  · obtain ⟨w, hw⟩ := hM.exists_value? hu hu0 hend fun hu hkids => hroot ⟨hu, hkids⟩
    exact .inr ⟨u, hu0, hu, by rw [hw]; rfl, by omega⟩

/-- **The way up from a cursor** has no more levels than the cursor is deep, and leads to a child of the
node that it ends at. -/
theorem rounds_climb (hk : At c T off s k) : ∃ rs,
      Rounds c (Program.climbRound (locate off s)) p (p.laterLabel c k.node, k.node, k.depth) rs p
        (p.climb (locate off s) k.depth (p.laterLabel c k.node) k.node) ∧
      rs.length ≤ k.depth + 1 ∧ ∀ l m d, p.climb (locate off s) k.depth (p.laterLabel c k.node) k.node =
        some (l, m, d) → ∃ key, p.walk c 0 key = some (p.offsetOf c m ^^^ l.toNat) ∧
          d + 1 ≤ key.length := by
  obtain ⟨n, d, value⟩ := k
  obtain ⟨t, hst, ht, h0, hvalue, rfl, rfl⟩ := hk
  obtain ⟨l, hl, -, hmodel⟩ := h.run_laterLabel hready ht hvalue
  have hlater : p.laterLabel c (locate off t) = l := hmodel
  obtain ⟨hclimb, hup⟩ := h.run_climb hst ht h0 hl
  rw [Program.climb_eq_loop] at hclimb
  obtain ⟨rs, hrs, hlen⟩ := Program.exists_rounds hclimb
  dsimp only
  rw [hlater]
  refine ⟨rs, hrs, hlen, fun l m d hnext => ?_⟩
  obtain ⟨q, hsq, hq, hq0, hl0, hl, rfl, rfl⟩ := hup l m d hnext
  refine ⟨(l :: q).reverse, h.walk_root.mpr ⟨?_, ?_, ?_⟩, ?_⟩
  · rw [List.mem_reverse, List.mem_cons, not_or]
    exact ⟨Ne.symm hl0, hq0⟩
  · rw [List.reverse_reverse]
    exact ⟨hq, hl⟩
  · rw [List.reverse_reverse, h.offsetOf_eq hq (.inr (List.ne_nil_of_mem hl)), locate_cons]
  · rw [List.length_reverse, List.length_cons]
    omega

end Lays

end Pool

/-! ### Calls -/

namespace Trie

/-- The walks on a trie with these entries end in time. -/
structure Walks (t : Trie) (M : Entries) : Prop where
  /-- The loops over chains in a call that changes the trie. The call must not need too many slots. -/
  chains : ∀ call, (t.perform call).1.pool.capacity ≤ Access.maxCapacity →
    (Program.perform t.config.rules call).run t.config t.pool =
        some ((t.perform call).1.pool, (t.perform call).2) ∧
      Program.ChainLoops t.config (Program.perform t.config.rules call) t.pool
  /-- The slots that go with a key, which are not that of the root. -/
  erase : ∀ key n v, t.pool.walk t.config 0 key = some n → t.pool.valueAt t.config n = .found v →
    ∃ rs, Rounds t.config (Program.pruneRound t.config.rules) t.pool (t.pool.valueSlot t.config n) rs
        (t.erase key).1.pool () ∧ rs.length ≤ key.length + 1 ∧ ∀ x ∈ rs, x.2 ≠ 0
  /-- The way down to the first key at or below the node of some bytes: these bytes and the levels
  below them are no more than the longest key has bytes. -/
  descend : ∀ key n d, t.pool.walk t.config 0 key = some n → d ≤ key.length →
    ∃ rs, Rounds t.config (Program.descendRound t.config.encoding) t.pool
        (t.pool.firstLabel t.config n, n, d) rs t.pool
        (t.pool.descend t.config t.pool.capacity (t.pool.firstLabel t.config n) n d) ∧
      ∀ N, (∀ key ∈ M, key.length ≤ N) → key.length + rs.length ≤ N + 1
  /-- The way up from a cursor has no more levels than the cursor is deep, and its depth is not used up
  before it ends. The way down after it starts at the node of some bytes. -/
  climb : ∀ stem i k,
    let s := stateAfter (Predictor.next t) (t.predictor stem) i
    let up := t.pool.climb s.root k.depth (t.pool.laterLabel t.config k.node) k.node
    s.cursor = some k → ∃ rs, Rounds t.config (Program.climbRound s.root) t.pool
        (t.pool.laterLabel t.config k.node, k.node, k.depth) rs t.pool up ∧
      rs.length ≤ k.depth + 1 ∧ ∀ l m d, up = some (l, m, d) →
        ∃ key, t.pool.walk t.config 0 key = some (t.pool.offsetOf t.config m ^^^ l.toNat) ∧
          d + 1 ≤ key.length
  /-- As many calls return a key as there are stored keys that begin with the bytes, and these calls
  come first. -/
  enumerate : ∀ stem : Key, ∃ ms, Returns (Predictor.next t) (t.predictor stem) ms ∧
    ms.length = (M.keys.filter fun key => stem <+: key).card

variable {t : Trie} {M : Entries} {stem : Key} {ms : List Match} {rests : List Key}

/-- A search that has come to its end stays there. -/
theorem returns_of_yields {s : Predictor} (h : Yields (Predictor.next t) s ms) :
    Returns (Predictor.next t) s ms := by
  induction h with
  | @nil s hend =>
    refine returns_nil (I := fun s => s.cursor = none) (fun s hs => ?_) ?_
    · unfold Predictor.next
      rw [hs]
      exact ⟨rfl, hs⟩
    · unfold Predictor.next at hend
      split at hend
      · assumption
      · simp at hend
  | cons hstep _ ih => exact returns_cons hstep ih

/-- There are as many matches as keys that begin with the stem. -/
theorem Completes.length_eq (h : t.Completes M stem ms rests) :
    ms.length = (M.keys.filter fun key => stem <+: key).card := by
  have hnodup : (rests.map (stem ++ ·)).Nodup := h.nodup.map fun _ _ => List.append_cancel_left
  have hkeys : (rests.map (stem ++ ·)).toFinset = M.keys.filter fun key => stem <+: key := by
    ext key
    rw [List.mem_toFinset, List.mem_map, Finset.mem_filter, Finmap.mem_keys]
    constructor
    · rintro ⟨rest, hrest, rfl⟩
      exact ⟨(h.mem rest).mp hrest, List.prefix_append stem rest⟩
    · rintro ⟨hM, rest, rfl⟩
      exact ⟨rest, (h.mem rest).mpr hM, rfl⟩
  rw [h.bytes.length_eq, ← hkeys, List.toFinset_card_of_nodup hnodup, List.length_map]

/-- **The walks on a trie end in time.** -/
theorem Holds.walks (h : t.Holds M) (hready : t.pool.Ready t.config)
    (hmax : t.config.maxTrial ≤ 2147483647) : t.Walks M := by
  obtain ⟨T, off, hlays, hM⟩ := id h
  refine ⟨fun call hcap => ?_, fun key n v hn hv => ?_, fun key n d hn hd => ?_,
    fun stem i k => ?_, fun stem => ?_⟩
  · have hrun := run_perform h hready hmax hcap
    exact ⟨hrun, Program.chainLoops (by rw [hrun]; rfl)⟩
  · exact hlays.rounds_prune hready hn hv
  · obtain ⟨h0, hmem, rfl⟩ := hlays.walk_root.mp hn
    rw [← List.mem_reverse] at h0
    obtain ⟨rs, hrs, hlen⟩ :=
      hlays.rounds_descend (d := d) hready hM hmem h0 (by rwa [List.length_reverse])
    refine ⟨rs, hrs, fun N hN => ?_⟩
    rw [List.length_reverse] at hlen
    rcases hlen with ⟨hroot, hlen⟩ | ⟨u, hu0, hu, hvalue, hlen⟩
    · rw [List.reverse_eq_nil_iff.mp hroot, hlen, List.length_nil]
      omega
    · rw [hM.value u hu hu0, Option.isSome_map, Finmap.lookup_isSome] at hvalue
      have hle := hN _ hvalue
      rw [List.length_reverse] at hle
      omega
  · dsimp only
    intro hk
    obtain ⟨s, hroot, hat⟩ := stateAfter_kept (I := Below t.config T off)
      (fun _ hs => (run_nextMatch hlays hready hM hs).2.2) (run_predictor hlays hready hM stem).2 i
    rw [hroot]
    exact hlays.rounds_climb hready (hat k hk)
  · obtain ⟨hyields, rests, hcompletes⟩ := h.predict stem
    exact ⟨_, returns_of_yields hyields, hcompletes.length_eq⟩

/-- **Every walk ends in time** on a trie that calls have made, whatever the encoding and the valid
options, while there are not too many slots: the searches for room, also in the middle of a call, the
loops over chains while a call changes them, the way up from a key that is erased, the ways up and down
of an enumeration, and the enumeration as a whole. -/
theorem walks_run {o : Options} {e : Encoding} (hcreate : Trie.create e o = .ok t)
    (hmax : o.maxTrial ≤ 2147483647) :
    (∀ p, t.Arises p → p.size ≤ Access.maxCapacity → p.Searches t.config) ∧
    ∀ calls, (t.run calls).1.pool.capacity ≤ Access.maxCapacity →
      (t.run calls).1.Walks (Entries.run e ∅ calls).1 := by
  refine ⟨fun p hp hsize => ?_, fun calls hcap => ?_⟩
  · have hkept := hp.kept hcreate
    obtain ⟨ho, rfl⟩ := validate_of_create hcreate
    exact hkept.searches hsize hmax
  · have hready := ready_of_create hcreate hmax calls hcap
    obtain ⟨ho, rfl⟩ := validate_of_create hcreate
    obtain ⟨hholds, hconfig, -⟩ := run_holds ho e calls
    exact hholds.walks hready (by rwa [hconfig])

/-- The searches in a pool with an open block that has 200 free slots, and the walks on a trie whose keys
part after their first byte, of which one is the beginning of another and one was erased. -/
theorem walks_run_reduced : ∃ t, Trie.create .reduced {} = .ok t ∧
    (∃ p, t.Arises p ∧ p.OnRing .opened 1 ∧ (p.freeList 1).length = 200 ∧ p.Searches t.config) ∧
    ∃ calls, calls = [.insert [97, 98] 1, .insert [97, 99] 2, .insert [97, 99, 100] 3,
        .erase [97, 98]] ∧
      blockSize < (t.run calls).1.pool.capacity ∧
      (t.run calls).1.pool.capacity ≤ Access.maxCapacity ∧
      (t.run calls).1.Walks (Entries.run .reduced ∅ calls).1 := by
  obtain ⟨t, hcreate⟩ : ∃ t, Trie.create .reduced {} = .ok t :=
    ⟨_, (create_eq (o := {}) rfl .reduced).1⟩
  obtain ⟨hsearches, hwalks⟩ := walks_run hcreate (by decide)
  refine ⟨t, hcreate, ?_, ?_⟩
  · obtain ⟨p, hp, hsize, -, hfree, htrials⟩ := exists_free_of_create hcreate (k := 200) (by decide)
    have hkept := hp.kept hcreate
    have huse : p.blocksInUse = 2 := congrArg (· / blockSize) hsize
    have hmax : t.config.maxTrial = 1 := by
      obtain ⟨-, rfl⟩ := validate_of_create hcreate
      rfl
    refine ⟨p, hp, ?_, ?_, hsearches p hp (hsize.trans_le (by decide))⟩
    · rw [hkept.orderly.opened 1 le_rfl (by omega)]
      omega
    · obtain ⟨-, hlength, -⟩ := hkept.orderly.freeList 1 (by omega)
      omega
  · have hcap := (capacity_run_of_create hcreate [.insert [97, 98] 1, .insert [97, 99] 2,
      .insert [97, 99, 100] 3, .erase [97, 98]]).trans (show _ ≤ Access.maxCapacity by decide)
    exact ⟨_, rfl, blockSize_lt_capacity_run hcreate [97, 99] (by decide) (by decide), hcap,
      hwalks _ hcap⟩

end Trie

end DoubleArrayTrie
