import DoubleArrayTrie.Proofs.Programs.Rounds
import DoubleArrayTrie.Proofs.Programs.Searching

/-!
# The loops of a trie

Chains are followed from sibling to sibling: to list their labels, to compare two of them, to find the
place of a label, and to tell children of a new parent. From the end of a key the slots that are of no
use are given back upwards, and a cursor goes up and down. Each of these loops is told by its round; the
programs give it a number of rounds that is enough.

* `Program.prune_eq_loop` and its like: the programs are these loops.
* `Program.rounds_followRound`, `Program.rounds_compareRound`, `Program.rounds_adoptRound`: the rounds
  along chains.
* `Program.ChainLoops`: the loops over chains that are parts of a run.
-/

namespace DoubleArrayTrie

namespace Program

/-! ### The rounds -/

/-- To the next sibling. -/
def followRound (k : Nat) (l : UInt8) : Program (UInt8 ⊕ Unit) := do
  let s ← slot (k ^^^ l.toNat)
  pure (if s.sibling = 0 then .inr () else .inl s.sibling)

/-- To the next siblings in two chains, up to the end of one of them. Only the second may go on. -/
def compareRound (k k' : Nat) : UInt8 × UInt8 → Program (UInt8 × UInt8 ⊕ Bool)
  | (l, m) => do
      let s ← slot (k ^^^ l.toNat)
      let t ← slot (k' ^^^ m.toNat)
      pure (if s.sibling = 0 ∨ t.sibling = 0 then .inr (decide (t.sibling ≠ 0))
        else .inl (s.sibling, t.sibling))

/-- To the next sibling while that is below a label. -/
def belowRound (k : Nat) (label l : UInt8) : Program (UInt8 ⊕ UInt8) := do
  let s ← slot (k ^^^ l.toNat)
  pure (if s.sibling ≠ 0 ∧ s.sibling < label then .inl s.sibling else .inr l)

/-- To the next sibling up to the one before a label, which must be there. -/
def beforeRound (k : Nat) (label l : UInt8) : Program (UInt8 ⊕ UInt8) := do
  let s ← slot (k ^^^ l.toNat)
  if s.sibling = label then pure (.inr l)
  else if s.sibling = 0 then fault
  else pure (.inl s.sibling)

/-- Names the new parent of a child before the slot of the child is read. -/
def adoptRound (e k : Nat) (l : UInt8) : Program (UInt8 ⊕ Unit) := do
  writeSlot (k ^^^ l.toNat) (.check e)
  followRound k l

/-- Gives back a slot, and goes on with its parent if it had no siblings. -/
def pruneRound (rules : Rules) (e : Nat) : Program (Nat ⊕ Unit) := do
  let s ← slot e
  let n ← index s.check
  let k ← offsetOf rules.encoding n
  let t ← slot n
  let u ← slot (k ^^^ t.child.toNat)
  if u.sibling ≠ 0 then do
    unlinkChild n k (UInt8.ofNat (k ^^^ e))
    release rules.maxTrial e
    pure (.inr ())
  else do
    release rules.maxTrial e
    pure (.inl n)

/-- To the child with a label and the label of its first child. -/
def descendRound (e : Encoding) : UInt8 × Nat × Nat → Program (UInt8 × Nat × Nat ⊕ Nat × Nat)
  | (l, n, depth) =>
      if l = 0 then pure (.inr (n, depth))
      else do
        let k ← offsetOf e n
        let s ← slot (k ^^^ l.toNat)
        let depth ← deeper depth
        pure (.inl (s.child, k ^^^ l.toNat, depth))

/-- To the parent and the label of the next sibling. Faults where the depth is used up below the node
where the search started. -/
def climbRound (root : Nat) :
    UInt8 × Nat × Nat → Program (UInt8 × Nat × Nat ⊕ Option (UInt8 × Nat × Nat))
  | (l, n, depth) =>
      if l ≠ 0 then pure (.inr (some (l, n, depth)))
      else if n = root then pure (.inr none)
      else do
        require (0 < depth)
        let s ← slot n
        let m ← index s.check
        pure (.inl (s.sibling, m, depth - 1))

/-! ### The loops -/

theorem lastBelow_eq_loop (k : Nat) (label : UInt8) (n : Nat) (l : UInt8) :
    lastBelow k label n l = loop (belowRound k label) n l := by
  refine eq_loop (fun _ => rfl) (fun n l => ?_) n l
  unfold belowRound
  rw [lastBelow, bind_assoc]
  refine bind_congr fun s => ?_
  split_ifs <;> rfl

theorem before_eq_loop (k : Nat) (label : UInt8) (n : Nat) (l : UInt8) :
    before k label n l = loop (beforeRound k label) n l := by
  refine eq_loop (fun _ => rfl) (fun n l => ?_) n l
  unfold beforeRound
  rw [before, bind_assoc]
  refine bind_congr fun s => ?_
  split_ifs <;> rfl

theorem prune_eq_loop (rules : Rules) (n e : Nat) :
    prune rules n e = loop (pruneRound rules) n e := by
  refine eq_loop (fun _ => rfl) (fun n e => ?_) n e
  unfold pruneRound
  rw [prune]
  simp only [bind_assoc, ite_bind, pure_bind, bind_pure_unit, Sum.elim_inl, Sum.elim_inr]

theorem descend_eq_loop (e : Encoding) (fuel : Nat) (l : UInt8) (n depth : Nat) :
    descend e fuel l n depth = loop (descendRound e) fuel (l, n, depth) := by
  refine eq_loop (f := fun fuel s => descend e fuel s.1 s.2.1 s.2.2) (fun _ => rfl)
    (fun fuel s => ?_) fuel (l, n, depth)
  unfold descendRound
  rw [descend]
  simp only [bind_assoc, ite_bind, pure_bind, Sum.elim_inl, Sum.elim_inr]

/-- A way up takes a round for each level, and one more to see that it has come to its end. -/
theorem climb_eq_loop (root depth : Nat) (l : UInt8) (n : Nat) :
    climb root depth l n = loop (climbRound root) (depth + 1) (l, n, depth) := by
  induction depth generalizing l n with
  | zero =>
    rw [climb, loop, climbRound]
    split_ifs <;> rfl
  | succ depth ih =>
    rw [climb, loop, climbRound]
    split_ifs
    · rfl
    · rfl
    · rw [require, if_pos depth.succ_pos]
      simp only [bind_assoc, pure_bind, Sum.elim_inl, Nat.add_sub_cancel, ih]

/-! ### Chains -/

variable {c : Config} {p q : Pool} {k k' n : Nat} {l m label : UInt8} {ls : List UInt8}

theorem run_followRound (h : k ^^^ l.toNat < p.size) : (followRound k l).run c p =
    some (p, if (p.slot (k ^^^ l.toNat)).sibling = 0 then .inr ()
      else .inl (p.slot (k ^^^ l.toNat)).sibling) := by
  unfold followRound
  rw [run_bind_of (run_slot h)]
  rfl

theorem lt_size_of_followRound {x : UInt8 ⊕ Unit} (h : (followRound k l).run c p = some (q, x)) :
    k ^^^ l.toNat < p.size := (run_slot_bind_eq_some.mp h).1

theorem run_followRound_inr {u : Unit} (h : (followRound k l).run c p = some (q, .inr u)) :
    k ^^^ l.toNat < p.size ∧ q = p ∧ (p.slot (k ^^^ l.toNat)).sibling = 0 := by
  have hlt := lt_size_of_followRound h
  rw [run_followRound hlt] at h
  split_ifs at h with hend
  · exact ⟨hlt, (Prod.mk.inj (Option.some.inj h)).1.symm, hend⟩
  · simp at h

theorem run_followRound_inl (h : (followRound k l).run c p = some (q, .inl m)) :
    k ^^^ l.toNat < p.size ∧ q = p ∧ (p.slot (k ^^^ l.toNat)).sibling = m ∧ m ≠ 0 := by
  have hlt := lt_size_of_followRound h
  rw [run_followRound hlt] at h
  split_ifs at h with hend
  · simp at h
  · obtain ⟨rfl, rfl⟩ : p = q ∧ (p.slot (k ^^^ l.toNat)).sibling = m := by simpa using h
    exact ⟨hlt, rfl, rfl, hend⟩

/-- **A chain that is listed** is followed from label to label. -/
theorem rounds_followRound (h : (chainFrom k n l).run c p = some (q, ls)) : q = p ∧
    p.chainFrom k n l = ls ∧ ls.length ≤ n ∧
      Rounds c (followRound k) p l (ls.map fun l => (p, l)) p () := by
  induction n generalizing l ls q with
  | zero => simp [chainFrom, run] at h
  | succ n ih =>
    obtain ⟨hlt, hrest⟩ := run_slot_bind_eq_some.mp h
    have hround := run_followRound (c := c) hlt
    unfold Pool.chainFrom
    dsimp only
    split_ifs at hrest hround ⊢
    · obtain ⟨rfl, rfl⟩ := eq_of_run_pure hrest
      exact ⟨rfl, rfl, Nat.succ_le_succ (Nat.zero_le n), .last hround⟩
    · obtain ⟨p', ms, hms, hlist⟩ := run_bind_eq_some.mp hrest
      obtain ⟨rfl, hchain, hlen, hrounds⟩ := ih hms
      obtain ⟨rfl, rfl⟩ := eq_of_run_pure hlist
      exact ⟨rfl, by rw [hchain], Nat.succ_le_succ hlen, .next hround hrounds⟩

theorem run_compareRound (hl : k ^^^ l.toNat < p.size) (hm : k' ^^^ m.toNat < p.size) :
    (compareRound k k' (l, m)).run c p =
      some (p, if (p.slot (k ^^^ l.toNat)).sibling = 0 ∨ (p.slot (k' ^^^ m.toNat)).sibling = 0 then
        .inr (decide ((p.slot (k' ^^^ m.toNat)).sibling ≠ 0))
        else .inl ((p.slot (k ^^^ l.toNat)).sibling, (p.slot (k' ^^^ m.toNat)).sibling)) := by
  unfold compareRound
  rw [run_bind_of (run_slot hl), run_bind_of (run_slot hm)]
  rfl

/-- **Two chains are compared** in no more rounds than the first one has labels, and it is told whether
that one is shorter. -/
theorem rounds_compareRound {q' : Pool} {rs us : List (Pool × UInt8)} {u v : Unit}
    (hl : Rounds c (followRound k) p l rs q u) (hm : Rounds c (followRound k') p m us q' v) :
    ∃ xs, Rounds c (compareRound k k') p (l, m) xs p (decide (rs.length < us.length)) ∧
      xs.length ≤ rs.length := by
  induction hl generalizing m us with
  | last hround =>
    obtain ⟨hlt, -, hend⟩ := run_followRound_inr hround
    cases hm with
    | last hround' =>
      obtain ⟨hlt', -, hend'⟩ := run_followRound_inr hround'
      have hrun := run_compareRound (c := c) hlt hlt'
      rw [if_pos (.inl hend), hend'] at hrun
      exact ⟨_, .last hrun, le_rfl⟩
    | next hround' hrest =>
      obtain ⟨hlt', -, rfl, hne⟩ := run_followRound_inl hround'
      have hpos := hrest.length_pos
      have hrun := run_compareRound (c := c) hlt hlt'
      rw [if_pos (.inl hend), decide_eq_true hne] at hrun
      refine ⟨_, .last (hrun.trans ?_), le_rfl⟩
      simp [hpos]
  | next hround _ ih =>
    obtain ⟨hlt, rfl, rfl, hne⟩ := run_followRound_inl hround
    cases hm with
    | last hround' =>
      obtain ⟨hlt', -, hend'⟩ := run_followRound_inr hround'
      have hrun := run_compareRound (c := c) hlt hlt'
      rw [if_pos (.inr hend'), hend'] at hrun
      refine ⟨_, .last (hrun.trans ?_), Nat.succ_le_succ (Nat.zero_le _)⟩
      simp
    | next hround' hrest =>
      obtain ⟨hlt', rfl, rfl, hne'⟩ := run_followRound_inl hround'
      obtain ⟨xs, hxs, hlen⟩ := ih hrest
      have hrun := run_compareRound (c := c) hlt hlt'
      rw [if_neg (not_or.mpr ⟨hne, hne'⟩)] at hrun
      refine ⟨_, .next hrun ?_, Nat.succ_le_succ hlen⟩
      simpa using hxs

/-- What comes before the place of a label is what the pool tells. -/
theorem lastBelow_of_run (h : (lastBelow k label n l).run c p = some (q, m)) :
    q = p ∧ p.lastBelow k label n l = m := by
  induction n generalizing l with
  | zero => simp [lastBelow, run] at h
  | succ n ih =>
    obtain ⟨-, hrest⟩ := run_slot_bind_eq_some.mp h
    unfold Pool.lastBelow
    dsimp only
    split_ifs at hrest ⊢
    · exact ih hrest
    · obtain ⟨rfl, rfl⟩ := eq_of_run_pure hrest
      exact ⟨rfl, rfl⟩

theorem before_of_run (h : (before k label n l).run c p = some (q, m)) :
    q = p ∧ p.before? k label n l = some m := by
  induction n generalizing l with
  | zero => simp [before, run] at h
  | succ n ih =>
    obtain ⟨-, hrest⟩ := run_slot_bind_eq_some.mp h
    unfold Pool.before?
    dsimp only
    split_ifs at hrest ⊢
    · obtain ⟨rfl, rfl⟩ := eq_of_run_pure hrest
      exact ⟨rfl, rfl⟩
    · simp [run] at hrest
    · exact ih hrest

/-! ### Children that get a new parent -/

theorem sibling_setCheck (p : Pool) (i : Nat) (parent : Int) (j : Nat) :
    ((p.setCheck i parent).slot j).sibling = (p.slot j).sibling := by
  unfold Pool.setCheck
  rw [Pool.slot_modifySlot]
  split_ifs <;> rfl

/-- The parent is named on the way along the chain, which does not change by that. -/
theorem rounds_adoptRound {e : Nat} {p' q' : Pool} {rs : List (Pool × UInt8)} {u : Unit}
    (h : Rounds c (followRound k) p l rs q u)
    (hsame : ∀ i, (p'.slot i).sibling = (p.slot i).sibling)
    (hrun : (forEach (rs.map Prod.snd) fun l => writeSlot (k ^^^ l.toNat) (.check e)).run c p' =
      some (q', ())) :
    ∃ us, Rounds c (adoptRound e k) p' l us q' () ∧ us.length = rs.length ∧
      (rs.map Prod.snd).foldl (fun p l => p.setCheck (k ^^^ l.toNat) e) p' = q' := by
  induction h generalizing p' with
  | @last p _ l _ hround =>
    obtain ⟨-, -, hend⟩ := run_followRound_inr hround
    obtain ⟨p₁, ⟨⟩, hwrite, hrest⟩ := run_bind_eq_some.mp hrun
    obtain ⟨hfits, rfl⟩ := run_writeSlot_eq_some.mp hwrite
    obtain ⟨rfl, -⟩ := eq_of_run_pure hrest
    refine ⟨[(p', l)], .last ?_, rfl, rfl⟩
    have hsibling := sibling_setCheck p' (k ^^^ l.toNat) e (k ^^^ l.toNat)
    have hfollow := run_followRound (c := c) (p := p'.setCheck (k ^^^ l.toNat) e) hfits.1
    rw [hsibling, hsame, if_pos hend] at hfollow
    exact (run_bind_of hwrite).trans hfollow
  | @next p _ _ l m _ _ hround hrest' ih =>
    obtain ⟨-, rfl, hnext, hne⟩ := run_followRound_inl hround
    obtain ⟨p₁, ⟨⟩, hwrite, hrest⟩ := run_bind_eq_some.mp hrun
    obtain ⟨hfits, rfl⟩ := run_writeSlot_eq_some.mp hwrite
    have hsibling := sibling_setCheck p' (k ^^^ l.toNat) e
    obtain ⟨us, hus, hlen, hfold⟩ := ih (fun i => (hsibling i).trans (hsame i)) hrest
    refine ⟨(p', l) :: us, .next ?_ hus, congrArg Nat.succ hlen, hfold⟩
    have hfollow := run_followRound (c := c) (p := p'.setCheck (k ^^^ l.toNat) e) hfits.1
    rw [hsibling, hsame, hnext, if_neg hne] at hfollow
    exact (run_bind_of hwrite).trans hfollow

/-! ### Up and down -/

/-- The slot of the root is not given back. -/
theorem ne_zero_of_release {maxTrial : Int} {e : Nat} {u : Unit}
    (h : (release maxTrial e).run c p = some (q, u)) : e ≠ 0 := by
  obtain ⟨p₁, s, -, h⟩ := run_bind_eq_some.mp h
  obtain ⟨p₂, ⟨⟩, hrequire, -⟩ := run_bind_eq_some.mp h
  exact (of_run_require hrequire).1.1

theorem ne_zero_of_pruneRound {rules : Rules} {e : Nat} {x : Nat ⊕ Unit}
    (h : (pruneRound rules e).run c p = some (q, x)) : e ≠ 0 := by
  obtain ⟨p₁, s, -, h⟩ := run_bind_eq_some.mp h
  obtain ⟨p₂, n, -, h⟩ := run_bind_eq_some.mp h
  obtain ⟨p₃, k, -, h⟩ := run_bind_eq_some.mp h
  obtain ⟨p₄, t, -, h⟩ := run_bind_eq_some.mp h
  obtain ⟨p₅, u, -, h⟩ := run_bind_eq_some.mp h
  split_ifs at h
  · obtain ⟨p₆, ⟨⟩, -, h⟩ := run_bind_eq_some.mp h
    obtain ⟨p₇, ⟨⟩, hrelease, -⟩ := run_bind_eq_some.mp h
    exact ne_zero_of_release hrelease
  · obtain ⟨p₆, ⟨⟩, hrelease, -⟩ := run_bind_eq_some.mp h
    exact ne_zero_of_release hrelease

/-- So the way up stays below the root. -/
theorem ne_zero_of_rounds {rules : Rules} {e : Nat} {rs : List (Pool × Nat)} {u : Unit}
    (h : Rounds c (pruneRound rules) p e rs q u) : ∀ x ∈ rs, x.2 ≠ 0 := by
  induction h with
  | last hround => simpa using ne_zero_of_pruneRound hround
  | next hround _ ih => exact List.forall_mem_cons.mpr ⟨ne_zero_of_pruneRound hround, ih⟩

theorem deeper_of_run {depth m : Nat} (h : (deeper depth).run c p = some (q, m)) :
    q = p ∧ m = depth + 1 := by
  unfold deeper at h
  split_ifs at h
  · exact eq_of_run_pure h
  · simp [run] at h

/-- A round of a way down goes on to the next level, or stays where it is. -/
theorem depth_of_descendRound {e : Encoding} {s : UInt8 × Nat × Nat}
    {x : UInt8 × Nat × Nat ⊕ Nat × Nat} (h : (descendRound e s).run c p = some (q, x)) :
    x.elim (fun s' => s'.2.2 = s.2.2 + 1) fun y => y.2 = s.2.2 := by
  obtain ⟨l, n, depth⟩ := s
  unfold descendRound at h
  dsimp only at h
  split_ifs at h
  · obtain ⟨rfl, rfl⟩ := eq_of_run_pure h
    rfl
  · obtain ⟨p₁, k, -, h⟩ := run_bind_eq_some.mp h
    obtain ⟨p₂, t, -, h⟩ := run_bind_eq_some.mp h
    obtain ⟨p₃, d, hdeeper, h⟩ := run_bind_eq_some.mp h
    obtain ⟨rfl, rfl⟩ := eq_of_run_pure h
    exact (deeper_of_run hdeeper).2

/-- A way down takes a round for each level, and one more to see that it has come to its end. -/
theorem length_descendRound {e : Encoding} {s : UInt8 × Nat × Nat}
    {rs : List (Pool × (UInt8 × Nat × Nat))} {y : Nat × Nat}
    (h : Rounds c (descendRound e) p s rs q y) : s.2.2 + rs.length = y.2 + 1 := by
  induction h with
  | last hround =>
    have hdepth := depth_of_descendRound hround
    rw [Sum.elim_inr] at hdepth
    rw [hdepth]
    rfl
  | next hround _ ih =>
    have hdepth := depth_of_descendRound hround
    rw [Sum.elim_inl] at hdepth
    rw [← ih, hdepth, List.length_cons]
    omega

/-! ### The loops over chains in a run -/

theorem index_of_run {i : Int} (h : (index i).run c p = some (q, n)) :
    0 ≤ i ∧ q = p ∧ n = i.toNat := by
  unfold index at h
  split_ifs at h with hi
  · exact ⟨hi, eq_of_run_pure h⟩
  · simp [run] at h

theorem offset_of_run {f : Encoding} {raw i : Int} (h : (offset f raw).run c p = some (q, i)) :
    q = p ∧ i = f.offset raw := by
  obtain ⟨p₁, ⟨⟩, hrequire, hpure⟩ := run_bind_eq_some.mp h
  obtain ⟨-, rfl⟩ := of_run_require hrequire
  exact eq_of_run_pure hpure

theorem offsetOf_of_run (h : (offsetOf c.encoding n).run c p = some (q, k)) :
    0 ≤ c.encoding.offset (p.slot n).base ∧ q = p ∧ k = p.offsetOf c n := by
  obtain ⟨-, h⟩ := run_slot_bind_eq_some.mp h
  obtain ⟨p₁, i, hoffset, h⟩ := run_bind_eq_some.mp h
  obtain ⟨rfl, rfl⟩ := offset_of_run hoffset
  exact index_of_run h

theorem rounds_chain (h : (chain n k).run c p = some (q, ls)) : q = p ∧ p.chain n k = ls ∧
    ls.length ≤ maxChildren ∧
      Rounds c (followRound k) p (p.slot n).child (ls.map fun l => (p, l)) p () := by
  obtain ⟨-, h⟩ := run_slot_bind_eq_some.mp h
  exact rounds_followRound h

/-- The loops over chains that a run starts: each of them ends in time, and with what the pool tells. -/
structure ChainLoops {α : Type} (c : Config) (x : Program α) (p : Pool) : Prop where
  /-- Where two nodes want one slot the labels of both are listed, and they are compared. -/
  relocate : ∀ (q : Pool) (r : Pool.Request), Starts c (relocate c.rules r) q x p →
    let owner := (q.slot r.slot).check.toNat
    let k := q.offsetOf c owner
    let mine := q.chain r.node r.offset
    let theirs := q.chain owner k
    (Rounds c (followRound r.offset) q (q.slot r.node).child (mine.map fun l => (q, l)) q () ∧
        mine.length ≤ maxChildren) ∧
      (Rounds c (followRound k) q (q.slot owner).child (theirs.map fun l => (q, l)) q () ∧
        theirs.length ≤ maxChildren) ∧
      ∃ both, Rounds c (compareRound r.offset k) q ((q.slot r.node).child, (q.slot owner).child) both
        q (decide (mine.length < theirs.length)) ∧ both.length ≤ maxChildren
  /-- A label is linked in behind those that are not above it. -/
  linkChild : ∀ (q : Pool) (n k : Nat) (label : UInt8),
    Starts c (linkChild c.ordered n k label true) q x p → c.ordered = true →
      (q.slot n).child < label → ∃ rs, Rounds c (belowRound k label) q (q.slot n).child rs q
        (q.lastBelow k label maxChildren (q.slot n).child) ∧ rs.length ≤ maxChildren
  /-- A label that is linked out is found behind another one. -/
  unlinkChild : ∀ (q : Pool) (n k : Nat) (label : UInt8),
    Starts c (unlinkChild n k label) q x p → (q.slot n).child ≠ label →
      ∃ rs l, Rounds c (beforeRound k label) q (q.slot n).child rs q l ∧
        q.before? k label maxChildren (q.slot n).child = some l ∧ rs.length ≤ maxChildren
  /-- The children of a node that has moved are told, one after the other. -/
  adopt : ∀ (q : Pool) (e k : Nat) (first : UInt8), Starts c (adopt e k first) q x p →
    ∃ rs, Rounds c (adoptRound e k) q first rs (q.adopt e k first) () ∧ rs.length ≤ maxChildren

/-- **The loops over chains end in time** in every run that does not fault, also while the chains are
changed. -/
theorem chainLoops {α : Type} {x : Program α} (h : (x.run c p).isSome) : ChainLoops c x p where
  relocate q r hstart := by
    obtain ⟨⟨q', e⟩, hrun⟩ := Option.isSome_iff_exists.mp (hstart.isSome h)
    obtain ⟨-, hrun⟩ := run_slot_bind_eq_some.mp hrun
    obtain ⟨q₂, owner, howner, hrun⟩ := run_bind_eq_some.mp hrun
    obtain ⟨-, rfl, rfl⟩ := index_of_run howner
    obtain ⟨q₃, k, hk, hrun⟩ := run_bind_eq_some.mp hrun
    obtain ⟨-, rfl, rfl⟩ := offsetOf_of_run hk
    obtain ⟨q₄, mine, hmine, hrun⟩ := run_bind_eq_some.mp hrun
    obtain ⟨rfl, rfl, hlen, hmine⟩ := rounds_chain hmine
    obtain ⟨q₅, theirs, htheirs, hrun⟩ := run_bind_eq_some.mp hrun
    obtain ⟨rfl, rfl, hlen', htheirs⟩ := rounds_chain htheirs
    obtain ⟨both, hboth, hle⟩ := rounds_compareRound hmine htheirs
    rw [List.length_map] at hle
    rw [List.length_map, List.length_map] at hboth
    exact ⟨⟨hmine, hlen⟩, ⟨htheirs, hlen'⟩, both, hboth, hle.trans hlen⟩
  linkChild q n k label hstart hordered hlt := by
    obtain ⟨⟨q', u⟩, hrun⟩ := Option.isSome_iff_exists.mp (hstart.isSome h)
    obtain ⟨-, hrun⟩ := run_slot_bind_eq_some.mp hrun
    rw [if_pos ⟨rfl, by rwa [if_pos hordered]⟩] at hrun
    obtain ⟨q₂, l, hl, -⟩ := run_bind_eq_some.mp hrun
    rw [insertAfter, if_pos hordered] at hl
    obtain ⟨rfl, rfl⟩ := lastBelow_of_run hl
    rw [lastBelow_eq_loop] at hl
    exact exists_rounds hl
  unlinkChild q n k label hstart hne := by
    obtain ⟨⟨q', u⟩, hrun⟩ := Option.isSome_iff_exists.mp (hstart.isSome h)
    obtain ⟨-, hrun⟩ := run_slot_bind_eq_some.mp hrun
    obtain ⟨-, hrun⟩ := run_slot_bind_eq_some.mp hrun
    rw [if_neg hne] at hrun
    obtain ⟨q₃, l, hl, -⟩ := run_bind_eq_some.mp hrun
    obtain ⟨rfl, hbefore⟩ := before_of_run hl
    rw [before_eq_loop] at hl
    obtain ⟨rs, hrs, hlen⟩ := exists_rounds hl
    exact ⟨rs, l, hrs, hbefore, hlen⟩
  adopt q e k first hstart := by
    obtain ⟨⟨q', ⟨⟩⟩, hrun⟩ := Option.isSome_iff_exists.mp (hstart.isSome h)
    obtain ⟨q₁, ls, hls, hrun⟩ := run_bind_eq_some.mp hrun
    obtain ⟨rfl, rfl, hlen, hrounds⟩ := rounds_followRound hls
    have hlabels : ((q₁.chainFrom k maxChildren first).map fun l => (q₁, l)).map Prod.snd =
        q₁.chainFrom k maxChildren first := by
      rw [List.map_map]
      exact List.map_id _
    obtain ⟨rs, hrs, hlen', hfold⟩ := rounds_adoptRound hrounds (fun _ => rfl) (by rwa [hlabels])
    rw [hlabels] at hfold
    rw [List.length_map] at hlen'
    rw [← hfold] at hrs
    exact ⟨rs, hrs, hlen'.trans_le hlen⟩

end Program

end DoubleArrayTrie
