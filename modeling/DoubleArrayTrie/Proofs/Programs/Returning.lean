import DoubleArrayTrie.Proofs.Programs.Loops

/-!
# Searches that run to their end

Whatever a pool holds: a program that searches it and does not fault gives what the search gives, and all
its cursors stand at nodes whose values can be read. So a search on the way to another node faults.

* `Pool.Readable`: the word of a node leads to its value.
* `Program.firstKey?_of_run`, `Program.nextKey?_of_run`: the cursors of a program that does not fault.
* `Program.readable_of_entries`: where all keys are listed, every cursor on the way is at such a node.
-/

namespace DoubleArrayTrie

/-- The word of a node is its value, or an offset where the value is. -/
def Pool.Readable (c : Config) (p : Pool) (n : Nat) : Prop :=
  c.encoding.holdsValue (p.slot n).base = true ∨ 0 ≤ c.encoding.offset (p.slot n).base

namespace Program

variable {c : Config} {p q : Pool} {root n e depth : Nat} {l : UInt8}

/-! ### Values -/

theorem valueSlot_of_run (h : (valueSlot c.encoding n).run c p = some (q, e)) :
    p.Readable c n ∧ q = p ∧ e = p.valueSlot c n := by
  obtain ⟨-, hrest⟩ := run_slot_bind_eq_some.mp h
  unfold Pool.valueSlot
  split_ifs at hrest ⊢ with hholds
  · exact ⟨.inl hholds, eq_of_run_pure hrest⟩
  · obtain ⟨hoffset, hrest⟩ := offsetOf_of_run hrest
    exact ⟨.inr hoffset, hrest⟩

theorem offset?_of_run {f : Encoding} {raw : Int} {k? : Option Nat}
    (h : (offset? f raw).run c p = some (q, k?)) : q = p := by
  obtain ⟨p₁, i, hoffset, hrest⟩ := run_bind_eq_some.mp h
  obtain ⟨rfl, -⟩ := offset_of_run hoffset
  split_ifs at hrest <;> exact (eq_of_run_pure hrest).1

/-- Nothing is written when a value is read. -/
theorem valueAt_of_run {answer : Lookup} (h : (valueAt c.encoding n).run c p = some (q, answer)) :
    q = p := by
  obtain ⟨-, hrest⟩ := run_slot_bind_eq_some.mp h
  split_ifs at hrest
  · exact (eq_of_run_pure hrest).1
  · exact (eq_of_run_pure hrest).1
  · obtain ⟨p₂, k?, hk, hlast⟩ := run_bind_eq_some.mp hrest
    obtain rfl := offset?_of_run hk
    cases k? with
    | none => exact (eq_of_run_pure hlast).1
    | some k =>
      obtain ⟨-, hend⟩ := run_slot_bind_eq_some.mp hlast
      split_ifs at hend <;> exact (eq_of_run_pure hend).1

/-! ### Down to the first key -/

theorem firstLabel_of_run {child : UInt8} (h : (firstLabel c.encoding n child).run c p = some (q, l)) :
    q = p ∧ l = if n = 0 then (p.slot (p.offsetOf c 0 ^^^ child.toNat)).sibling else child := by
  unfold firstLabel at h
  split_ifs at h ⊢
  · obtain ⟨p₁, k, hk, h₁⟩ := run_bind_eq_some.mp h
    obtain ⟨-, rfl, rfl⟩ := offsetOf_of_run hk
    obtain ⟨-, h₂⟩ := run_slot_bind_eq_some.mp h₁
    exact eq_of_run_pure h₂
  · exact eq_of_run_pure h

theorem descend_of_run {fuel : Nat} {y : Nat × Nat}
    (h : (descend c.encoding fuel l n depth).run c p = some (q, y)) :
    q = p ∧ y = p.descend c fuel l n depth := by
  induction fuel generalizing l n depth with
  | zero => simp [descend, run] at h
  | succ fuel ih =>
    unfold descend at h
    unfold Pool.descend
    split_ifs at h ⊢
    · exact eq_of_run_pure h
    · obtain ⟨p₁, k, hk, h₁⟩ := run_bind_eq_some.mp h
      obtain ⟨-, rfl, rfl⟩ := offsetOf_of_run hk
      obtain ⟨-, h₂⟩ := run_slot_bind_eq_some.mp h₁
      obtain ⟨p₃, m, hm, h₃⟩ := run_bind_eq_some.mp h₂
      obtain ⟨rfl, rfl⟩ := deeper_of_run hm
      exact ih h₃

/-- **The first key that a program comes to** is the one that the search comes to. -/
theorem firstKey?_of_run {k? : Option Cursor} (hfull : p.size = p.capacity)
    (h : (firstKey? c.encoding n depth).run c p = some (q, k?)) :
    (∀ k, k? = some k → p.Readable c k.node) ∧ q = p ∧ k? = p.firstKey? c n depth := by
  obtain ⟨-, h₁⟩ := run_slot_bind_eq_some.mp h
  obtain ⟨p₂, l, hlabel, h₂⟩ := run_bind_eq_some.mp h₁
  obtain ⟨rfl, hl⟩ := firstLabel_of_run hlabel
  unfold Pool.firstKey?
  dsimp only
  rw [← hl]
  split_ifs at h₂ ⊢
  · obtain ⟨rfl, rfl⟩ := eq_of_run_pure h₂
    exact ⟨by simp, rfl, rfl⟩
  · obtain ⟨p₃, fuel, hsize, h₃⟩ := run_bind_eq_some.mp h₂
    obtain ⟨rfl, rfl⟩ := eq_of_run_size hsize
    obtain ⟨p₄, y, hy, h₄⟩ := run_bind_eq_some.mp h₃
    obtain ⟨rfl, rfl⟩ := descend_of_run hy
    obtain ⟨p₅, v, hv, h₅⟩ := run_bind_eq_some.mp h₄
    obtain ⟨hreadable, rfl, rfl⟩ := valueSlot_of_run hv
    obtain ⟨-, h₆⟩ := run_slot_bind_eq_some.mp h₅
    obtain ⟨rfl, rfl⟩ := eq_of_run_pure h₆
    rw [← hfull]
    refine ⟨fun k hk => ?_, rfl, rfl⟩
    obtain rfl := Option.some.inj hk
    exact hreadable

/-! ### From key to key -/

theorem climb_of_run {y : Option (UInt8 × Nat × Nat)}
    (h : (climb root depth l n).run c p = some (q, y)) : q = p ∧ y = p.climb root depth l n := by
  induction depth generalizing l n with
  | zero =>
    unfold climb at h
    unfold Pool.climb
    split_ifs at h ⊢
    · exact eq_of_run_pure h
    · exact eq_of_run_pure h
    · simp [run] at h
  | succ depth ih =>
    unfold climb at h
    unfold Pool.climb
    split_ifs at h ⊢
    · exact eq_of_run_pure h
    · exact eq_of_run_pure h
    · obtain ⟨-, h₁⟩ := run_slot_bind_eq_some.mp h
      obtain ⟨p₂, m, hm, h₂⟩ := run_bind_eq_some.mp h₁
      obtain ⟨-, rfl, rfl⟩ := index_of_run hm
      exact ih h₂

theorem laterLabel_of_run (h : (laterLabel c.encoding n).run c p = some (q, l)) : q = p ∧ l =
    if c.encoding.holdsValue (p.slot n).base then 0 else (p.slot (p.offsetOf c n)).sibling := by
  obtain ⟨-, h₁⟩ := run_slot_bind_eq_some.mp h
  split_ifs at h₁ ⊢
  · exact eq_of_run_pure h₁
  · obtain ⟨p₂, k, hk, h₂⟩ := run_bind_eq_some.mp h₁
    obtain ⟨-, rfl, rfl⟩ := offsetOf_of_run hk
    obtain ⟨-, h₃⟩ := run_slot_bind_eq_some.mp h₂
    exact eq_of_run_pure h₃

/-- **The next key that a program comes to** is the one that the search comes to. -/
theorem nextKey?_of_run {k : Cursor} {k? : Option Cursor} (hfull : p.size = p.capacity)
    (h : (nextKey? c.encoding root k).run c p = some (q, k?)) :
    (∀ k', k? = some k' → p.Readable c k'.node) ∧ q = p ∧ k? = p.nextKey? c root k := by
  obtain ⟨p₁, l, hlabel, h₁⟩ := run_bind_eq_some.mp h
  obtain ⟨rfl, hl⟩ := laterLabel_of_run hlabel
  obtain ⟨p₂, up?, hclimb, h₂⟩ := run_bind_eq_some.mp h₁
  obtain ⟨rfl, hup⟩ := climb_of_run hclimb
  unfold Pool.nextKey?
  dsimp only
  rw [← hl, ← hup]
  match up? with
  | none =>
    obtain ⟨rfl, rfl⟩ := eq_of_run_pure h₂
    exact ⟨by simp, rfl, rfl⟩
  | some (l', m, d) =>
    obtain ⟨p₃, o, ho, h₃⟩ := run_bind_eq_some.mp h₂
    obtain ⟨-, rfl, rfl⟩ := offsetOf_of_run ho
    obtain ⟨p₄, d', hd, h₄⟩ := run_bind_eq_some.mp h₃
    obtain ⟨rfl, rfl⟩ := deeper_of_run hd
    exact firstKey?_of_run hfull h₄

/-! ### All keys -/

/-- **A search that comes to a cursor** can read the value of its node. -/
theorem readable_of_drain {k : Cursor} {ks : List Cursor} {k? k?' : Option Cursor}
    (hfull : p.size = p.capacity) (hvisits : Pool.Visits c p root k? ks k?') (hk : k?' = some k)
    (hfirst : ∀ k, k? = some k → p.Readable c k.node) (hn : ks.length ≤ n)
    (h : ((drain (nextMatch c.encoding) n ⟨root, k?⟩).run c p).isSome) : p.Readable c k.node := by
  induction hvisits generalizing n with
  | refl => exact hfirst k hk
  | step _ ih =>
    rw [List.length_cons] at hn
    obtain ⟨n, rfl⟩ := Nat.exists_eq_succ_of_ne_zero (Nat.ne_of_gt (Nat.zero_lt_of_lt hn))
    obtain ⟨y, hy⟩ := Option.isSome_iff_exists.mp h
    obtain ⟨p₁, ⟨m?, s⟩, hmatch, h₁⟩ := run_bind_eq_some.mp hy
    obtain ⟨p₂, k?, hnext, h₂⟩ := run_bind_eq_some.mp hmatch
    obtain ⟨hreadable, rfl, rfl⟩ := nextKey?_of_run hfull hnext
    obtain ⟨rfl, hs⟩ := eq_of_run_pure h₂
    obtain ⟨rfl, rfl⟩ := Prod.mk.inj hs
    obtain ⟨p₃, as, has, -⟩ := run_bind_eq_some.mp h₁
    exact ih hk hreadable (Nat.le_of_succ_le_succ hn)
      (Option.isSome_iff_exists.mpr ⟨_, has⟩)

/-- **All keys are listed** only if the values of all nodes on the way can be read. -/
theorem readable_of_entries {k : Cursor} {ks : List Cursor} (hfull : p.size = p.capacity)
    (hvisits : Pool.Visits c p 0 (p.firstKey? c 0 0) ks (some k)) (hn : ks.length ≤ p.size + 1)
    (h : ((entries c.encoding).run c p).isSome) : p.Readable c k.node := by
  obtain ⟨y, hy⟩ := Option.isSome_iff_exists.mp h
  obtain ⟨p₁, ms, hpredict, -⟩ := run_bind_eq_some.mp hy
  obtain ⟨p₂, s, hstart, h₁⟩ := run_bind_eq_some.mp hpredict
  obtain ⟨p₃, n?, hwalk, h₂⟩ := run_bind_eq_some.mp hstart
  obtain ⟨rfl, rfl⟩ := eq_of_run_pure hwalk
  obtain ⟨p₄, answer, hanswer, h₃⟩ := run_bind_eq_some.mp h₂
  obtain rfl := valueAt_of_run hanswer
  obtain ⟨p₅, k?, hfirst, h₄⟩ := run_bind_eq_some.mp h₃
  obtain ⟨hreadable, rfl, rfl⟩ := firstKey?_of_run hfull hfirst
  obtain ⟨rfl, rfl⟩ := eq_of_run_pure h₄
  obtain ⟨p₆, m, hsize, h₅⟩ := run_bind_eq_some.mp h₁
  obtain ⟨rfl, rfl⟩ := eq_of_run_size hsize
  exact readable_of_drain hfull hvisits rfl hreadable hn
    (Option.isSome_iff_exists.mpr ⟨_, h₅⟩)

end Program

end DoubleArrayTrie
