import DoubleArrayTrie.Proofs.Accounting
import DoubleArrayTrie.Proofs.Creation
import DoubleArrayTrie.Proofs.Erasure

/-!
# Which keys have a terminal

In the reduced encoding a node without children holds the value of its key itself. When the node gets
a child the value goes down to a terminal, and there it stays when the other children go: erasing a key
gives back what only that key needs, and does not bring the values of other keys up again. So a key has
a terminal if another key begins with it, or did at some time since it was last new.

* `Entries.WasInner`: another key began with this one, and it has been stored ever since.
* `Pool.LeafHolds`, `Pool.TerminalHolds`: the two places of a value.
* `Ends.perform`: what a call does to the keys that have a terminal.
* `Trie.leaf_or_terminal_run`: where the values are after any calls on a new trie.
-/

namespace DoubleArrayTrie

/-! ### Keys that another has begun with -/

namespace Entries

variable {e : Encoding} {calls : List Call} {call : Call} {M : Entries} {key : Key} {value : Int32}

/-- After some number of calls another key began with this one, and it has been stored ever since. -/
def WasInner (e : Encoding) (calls : List Call) (key : Key) : Prop :=
  ∃ n ≤ calls.length, key ∈ ((∅ : Entries).run e (calls.take n)).1.inner ∧
    ∀ m, n ≤ m → m ≤ calls.length → key ∈ ((∅ : Entries).run e (calls.take m)).1

theorem not_wasInner_nil : ¬ WasInner e [] key := by
  rintro ⟨n, -, hinner, -⟩
  rw [List.take_nil] at hinner
  exact Finmap.notMem_empty (mem_inner.mp hinner).1

/-- **What one more call does**: a key that is still there stays what it was, or is one that another
begins with now. -/
theorem wasInner_append_singleton :
    WasInner e (calls ++ [call]) key ↔ key ∈ ((∅ : Entries).run e (calls ++ [call])).1 ∧
      (WasInner e calls key ∨ key ∈ ((∅ : Entries).run e (calls ++ [call])).1.inner) := by
  have hlength : (calls ++ [call]).length = calls.length + 1 := by simp
  have hlonger := fun {n : Nat} => @forall_take_append_singleton
    (fun calls => key ∈ ((∅ : Entries).run e calls).1) calls call n
  constructor
  · rintro ⟨n, hn, hinner, hsince⟩
    obtain ⟨hbefore, hmem⟩ := (hlonger (hlength ▸ hn)).mp hsince
    refine ⟨hmem, ?_⟩
    rcases Nat.lt_or_ge calls.length n with hlt | hle
    · rw [List.take_of_length_le (by omega)] at hinner
      exact .inr hinner
    · rw [List.take_append_of_le_length hle] at hinner
      exact .inl ⟨n, hle, hinner, hbefore⟩
  · rintro ⟨hmem, ⟨n, hn, hinner, hsince⟩ | hinner⟩
    · refine ⟨n, by omega, by rwa [List.take_append_of_le_length hn], ?_⟩
      exact (hlonger (by omega)).mpr ⟨hsince, hmem⟩
    · refine ⟨_, le_rfl, by rwa [List.take_length], ?_⟩
      exact (hlonger hlength.le).mpr ⟨fun m hm hle => by omega, hmem⟩

/-- One more entry takes no key away from those that others begin with. -/
theorem inner_subset_insert : M.inner ⊆ inner (M.insert key value) := by
  intro key' hinner
  obtain ⟨hkey, longer, hlonger, hle⟩ := mem_inner.mp hinner
  exact mem_inner.mpr ⟨Finmap.mem_insert.mpr (.inr hkey), longer, Finmap.mem_insert.mpr (.inr hlonger),
    hle⟩

end Entries

/-! ### Outlines -/

namespace Outline

variable {c : Config} {T : Outline} {M : Entries} {q t : Trail} {x : UInt8} {key other : Key}

theorem kids_subset_graft : T.kids t ⊆ (T.graft c q x).kids t := by
  by_cases ht : t = q
  · subst ht
    rw [kids_graft_self]
    exact fun l hl => mem_insertLabel.mpr (.inr hl)
  · rw [kids_graft_of_ne x ht]
    exact List.Subset.refl _

theorem kids_subset_ensure : T.kids t ⊆ (T.ensure c q x).kids t := by
  unfold ensure
  split_ifs
  · exact List.Subset.refl _
  · exact kids_subset_graft

theorem kids_subset_openLeaf : T.kids t ⊆ (T.openLeaf c q).kids t := by
  unfold openLeaf
  cases T.leafValue? c q with
  | none => exact List.Subset.refl _
  | some w => exact kids_subset_graft

theorem kids_subset_extend (ls : List UInt8) : T.kids t ⊆ (T.extend c q ls).kids t := by
  induction ls generalizing T q with
  | nil => exact List.Subset.refl _
  | cons x ls ih =>
    have hstep : T.kids t ⊆ ((T.openLeaf c q).ensure c q x).kids t :=
      List.Subset.trans kids_subset_openLeaf kids_subset_ensure
    exact List.Subset.trans hstep ih

/-- Storing a value takes no child away. -/
theorem kids_subset_store (w : Int) : T.kids t ⊆ (T.store c key w).kids t := by
  refine List.Subset.trans (kids_subset_extend (c := c) (q := []) key) ?_
  unfold store setValue
  split_ifs
  · exact List.Subset.refl _
  · exact kids_subset_ensure

/-- A key that another begins with has a child on the way to it. -/
theorem Holds.exists_kid_of_inner (hM : T.Holds c [] fun q => M.lookup q.reverse)
    (hinner : key ∈ M.inner) : ∃ l ∈ T.kids key.reverse, l ≠ 0 := by
  obtain ⟨hkey, longer, hlonger, ⟨rest, rfl⟩, hne⟩ := Entries.mem_inner.mp hinner
  obtain ⟨l, rest, rfl⟩ := List.exists_cons_of_ne_nil (l := rest) (by simpa using hne)
  obtain ⟨value, hlookup⟩ := Finmap.mem_iff.mp hkey
  obtain ⟨h0, hmem, -⟩ := hM.stored hlookup
  have hstem : key ++ [l] ∈ M.stems :=
    Entries.mem_stems.mpr ⟨by simp, _, hlonger, ⟨rest, by simp⟩⟩
  have hl : l ≠ 0 := by
    rintro rfl
    exact hM.zero_notMem_stem hstem (by simp)
  rw [← key.reverse_reverse] at hstem
  exact ⟨l, (hM.mem_kids_iff hmem h0 hl).mpr hstem, hl⟩

/-- Erasing a key leaves the terminals of the others. -/
theorem Holds.mem_ended_erase (hM : T.Holds c [] fun q => M.lookup q.reverse) (hT : T.Sound c)
    (hkey : key ∈ M) : other ∈ (T.erase c key.reverse).ended (M.erase key) ↔
      other ∈ T.ended M ∧ other ≠ key := by
  constructor
  · intro hended
    obtain ⟨hmem, hterm⟩ := mem_ended.mp hended
    obtain ⟨hne, hmem⟩ := Finmap.mem_erase.mp hmem
    exact ⟨mem_ended.mpr ⟨hmem, (kids_prune T _ _).subset hterm⟩, hne⟩
  · rintro ⟨hended, hne⟩
    have hmem := (hM.mem_terminal_iff (q := other.reverse) hT).mpr (by rwa [List.reverse_reverse])
    obtain ⟨value, hlookup⟩ := Finmap.mem_iff.mp hkey
    have h0 := (hM.stored hlookup).1
    have hleft := (hM.mem_erase_iff hT hkey (u := 0 :: other.reverse)).mpr ⟨hmem, ?_⟩
    · exact mem_ended.mpr ⟨Finmap.mem_erase.mpr ⟨hne, (mem_ended.mp hended).1⟩, hleft.2⟩
    · rintro (hvalue | ⟨-, hle, -⟩)
      · unfold valueTrail at hvalue
        split_ifs at hvalue
        · exact hne (List.reverse_injective (List.cons.inj hvalue).2)
        · exact h0 (hvalue ▸ List.mem_cons_self)
      · exact h0 (hle.subset List.mem_cons_self)

end Outline

namespace Trie

variable {t : Trie} {T : Outline} {M : Entries} {S : Key → Prop} {key other : Key} {value : Int32}

/-- **Which keys have a terminal once a value is stored**, where leaves hold values: those that had one,
and those that another key begins with. -/
theorem Shows.mem_ended_store (h : t.Shows T M) (he : t.config.encoding = .reduced)
    (hrefusal : refusal t.config.encoding key value = none) :
    other ∈ (T.store t.config key value.toInt).ended (M.insert key value) ↔
      other ∈ T.ended M ∨ other ∈ Entries.inner (M.insert key value) := by
  obtain ⟨hkey, h0, -⟩ := refusal_eq_none hrefusal
  obtain ⟨off', hlays', hM'⟩ := (Shows.store h hrefusal).1
  obtain ⟨off, hlays, hM⟩ := h
  have hT := hlays.sound
  constructor
  · refine fun hended => or_iff_not_imp_right.mpr fun hinner => ?_
    -- the terminal stands alone, and it did before
    have hkids := hM'.kids_of_ended hlays'.sound hended hinner
    have hbefore := Outline.kids_of_store hT he hkey h0 hkids
    have hmem : T.Mem other.reverse := by
      by_contra hmem
      rw [hT.outside _ hmem] at hbefore
      simp at hbefore
    have hterm := (hM.mem_terminal_iff hT).mp ⟨hmem, by rw [hbefore]; exact List.mem_cons_self⟩
    rwa [List.reverse_reverse] at hterm
  · rintro (hended | hinner)
    · obtain ⟨hmem, hterm⟩ := Outline.mem_ended.mp hended
      exact Outline.mem_ended.mpr
        ⟨Finmap.mem_insert.mpr (.inr hmem), Outline.kids_subset_store _ hterm⟩
    · exact hM'.inner_subset hinner

/-- The trie holds these entries, and `S` tells which keys have a terminal. -/
def Ends (t : Trie) (M : Entries) (S : Key → Prop) : Prop :=
  ∃ T, t.Shows T M ∧ ∀ key, key ∈ T.ended M ↔ S key

namespace Ends

theorem mem (h : t.Ends M S) (hkey : S key) : key ∈ M := by
  obtain ⟨T, -, hS⟩ := h
  exact (Outline.mem_ended.mp ((hS key).mpr hkey)).1

theorem of_inner (h : t.Ends M S) (hinner : key ∈ M.inner) : S key := by
  obtain ⟨T, ⟨off, -, hM⟩, hS⟩ := h
  exact (hS key).mp (hM.inner_subset hinner)

theorem congr {S' : Key → Prop} (h : t.Ends M S) (hSS' : ∀ key, S key ↔ S' key) : t.Ends M S' := by
  obtain ⟨T, hT, hS⟩ := h
  exact ⟨T, hT, fun key => (hS key).trans (hSS' key)⟩

theorem store (h : t.Ends M S) (he : t.config.encoding = .reduced)
    (hrefusal : refusal t.config.encoding key value = none) :
    Trie.Ends ⟨t.config, (t.pool.store t.config key value).1⟩ (M.insert key value)
      fun other => S other ∨ other ∈ Entries.inner (M.insert key value) := by
  obtain ⟨T, hT, hS⟩ := h
  refine ⟨_, (Shows.store hT hrefusal).1, fun other => ?_⟩
  rw [hT.mem_ended_store he hrefusal, hS]

theorem erase (h : t.Ends M S) (key : Key) :
    (t.erase key).1.Ends (M.erase key) fun other => S other ∧ other ≠ key := by
  obtain ⟨T, hT, hS⟩ := h
  refine ⟨_, (hT.erase key).1, fun other => Iff.trans ?_ (and_congr_left fun _ => hS other)⟩
  obtain ⟨off, hlays, hM⟩ := hT
  by_cases hkey : key ∈ M
  · rw [if_pos hkey]
    exact hM.mem_ended_erase hlays.sound hkey
  · rw [if_neg hkey, Outline.mem_ended, Outline.mem_ended, Finmap.mem_erase]
    tauto

/-- **What a call does to the keys that have a terminal**: those that stay have it still, and those that
another key begins with have one. -/
theorem perform (h : t.Ends M S) (he : t.config.encoding = .reduced) (call : Call) :
    (t.perform call).1.Ends (M.perform .reduced call).1 fun key =>
      key ∈ (M.perform .reduced call).1 ∧ (S key ∨ key ∈ (M.perform .reduced call).1.inner) := by
  by_cases hcall : call.Builds
  · have hstart : t.Ends M fun key => S key ∨ key ∈ M.inner :=
      h.congr fun key => (or_iff_left_of_imp h.of_inner).symm
    have hnext : (t.perform call).1.Ends (M.perform .reduced call).1 fun key =>
        S key ∨ key ∈ (M.perform .reduced call).1.inner := by
      refine perform_of_builds (P := fun t M => t.Ends M fun key => S key ∨ key ∈ M.inner)
        (fun {t M key value} he h hrefusal => ?_) he hstart hcall
      refine (h.store he (by rwa [he])).congr fun other => ?_
      have hmono := @Entries.inner_subset_insert M key value other
      tauto
    exact hnext.congr fun key => (and_iff_right_of_imp hnext.mem).symm
  · cases call with
    | erase key =>
      have hnext := h.erase key
      refine hnext.congr fun other => ⟨fun hother => ⟨hnext.mem hother, .inl hother.1⟩, ?_⟩
      rintro ⟨hmem, hS | hinner⟩
      · exact ⟨hS, (Finmap.mem_erase.mp hmem).1⟩
      · exact hnext.of_inner hinner
    | insert | insertAll | insertKeys => exact absurd trivial hcall

end Ends

/-- **After any calls on a new trie** whose leaves hold values a key has a terminal if another key begins
with it, or did at some time since it was last new. -/
theorem ends_run {o : Options} (ho : o.validate = .ok ()) (calls : List Call) :
    ((Trie.empty { o with encoding := .reduced }).run calls).1.Ends (Entries.run .reduced ∅ calls).1
      (Entries.WasInner .reduced calls) := by
  induction calls using List.reverseRecOn with
  | nil =>
    refine ⟨.empty, shows_empty (create_eq ho .reduced).2, fun key => ?_⟩
    exact iff_of_false (fun hended => Finmap.notMem_empty (Outline.mem_ended.mp hended).1)
      Entries.not_wasInner_nil
  | append_singleton calls call ih =>
    have hconfig := (run_holds ho .reduced calls).2.1
    have hnext := ih.perform (by rw [hconfig]) call
    have hrun : ((∅ : Entries).run .reduced (calls ++ [call])).1 =
        (((∅ : Entries).run .reduced calls).1.perform .reduced call).1 :=
      Entries.run_append _ _ calls [call]
    rw [← hrun] at hnext
    rw [run_append]
    exact hnext.congr fun key => Entries.wasInner_append_singleton.symm

end Trie

/-! ### Slots -/

namespace Pool

variable {c : Config} {p : Pool} {T : Outline} {off : Trail → Nat} {M : Entries} {key : Key}
  {value : Int32} {n : Nat} {others : List UInt8}

/-- Slot `n` holds the value itself, and no slot is in use for a child. -/
structure LeafHolds (c : Config) (p : Pool) (n : Nat) (value : Int32) : Prop where
  holds : c.encoding.holdsValue (p.slot n).base = true
  base : (p.slot n).base = value.toInt
  child : (p.slot n).child = 0
  children : p.Children c n []
  alone : ∀ i ∈ p.usedSlots, (p.slot i).check ≠ n

/-- Node `n` has a terminal that holds the value, and these other children. -/
structure TerminalHolds (c : Config) (p : Pool) (n : Nat) (others : List UInt8) (value : Int32) :
    Prop where
  children : p.Children c n (0 :: others)
  used : p.offsetOf c n ∈ p.usedSlots
  check : (p.slot (p.offsetOf c n)).check = n
  base : (p.slot (p.offsetOf c n)).base = value.toInt

/-- A value is in one place only. -/
theorem TerminalHolds.not_leafHolds (h : p.TerminalHolds c n others value) :
    ¬ p.LeafHolds c n value := fun hleaf => by
  simpa using h.children.unique hleaf.children

/-- A key that has no terminal has its value in its own slot. -/
theorem Lays.leafHolds (h : p.Lays c T off) (hM : T.Holds c [] fun q => M.lookup q.reverse)
    (hlookup : M.lookup key = some value) (hterm : key ∉ T.ended M) :
    p.LeafHolds c (locate off key.reverse) value := by
  obtain ⟨h0, hmem, hvalue⟩ := hM.stored hlookup
  have hzero : 0 ∉ T.kids key.reverse := fun hkid =>
    hterm (Outline.mem_ended.mpr ⟨Finmap.mem_of_lookup_eq_some hlookup, hkid⟩)
  rw [Outline.value?, if_neg hzero] at hvalue
  obtain ⟨hne, hkids, hword⟩ := Outline.leafValue?_eq_some hvalue
  have hhead : key.reverse.head? ≠ some 0 := fun hhead => h0 (List.mem_of_head? hhead)
  obtain ⟨l, q, hq⟩ := List.exists_cons_of_ne_nil hne
  rw [hq] at hmem hvalue hkids hword hhead ⊢
  have hchildren := h.children_kids hM hmem hhead
  rw [hkids] at hchildren
  refine
    { holds := ?_
      base := by rw [h.base_of_leaf hmem hkids, hword]
      child := by rw [h.child_eq hmem, Outline.chain_cons, hkids]; rfl
      children := hchildren
      alone := fun i hi hcheck => ?_ }
  · rw [h.leafValue?_eq hmem] at hvalue
    split_ifs at hvalue with hbase
    exact hbase.1
  · obtain ⟨hlt, -⟩ := Pool.mem_usedSlots.mp hi
    obtain ⟨m, hm, -⟩ := h.exists_kid hmem hlt hcheck
    rw [hkids] at hm
    simp at hm

/-- A key that has a terminal has its value there. -/
theorem Lays.terminalHolds (h : p.Lays c T off) (hM : T.Holds c [] fun q => M.lookup q.reverse)
    (hlookup : M.lookup key = some value) (hkids : T.kids key.reverse = 0 :: others) :
    p.TerminalHolds c (locate off key.reverse) others value := by
  obtain ⟨h0, hmem, hvalue⟩ := hM.stored hlookup
  have hne : T.kids key.reverse ≠ [] := by rw [hkids]; simp
  have hzero : 0 ∈ T.kids key.reverse := by rw [hkids]; exact List.mem_cons_self
  have hchild : T.Mem (0 :: key.reverse) := ⟨hmem, hzero⟩
  have hoffset : p.offsetOf c (locate off key.reverse) = locate off (0 :: key.reverse) := by
    rw [h.offsetOf_eq hmem (.inr hne), locate_cons]
    exact (Nat.xor_zero _).symm
  rw [Outline.value?, if_pos hzero] at hvalue
  have hchildren := h.children_of hmem (.inr (.inl hne))
  rw [hkids] at hchildren
  refine
    { children := hchildren
      used := ?_
      check := ?_
      base := ?_ }
  · rw [hoffset]
    exact h.mem_usedSlots.mpr ⟨_, hchild, rfl⟩
  · rw [hoffset, h.check_cons hchild]
  · rw [hoffset, h.base_of_leaf hchild (h.sound.terminal _)]
    exact Option.some.inj hvalue

end Pool

namespace Trie

variable {t : Trie} {M : Entries} {S : Key → Prop} {key : Key} {value : Int32}

/-- **Where the value of a key is**: in its terminal, if it has one, and else in its own slot. -/
theorem Ends.place (h : t.Ends M S) (hlookup : M.lookup key = some value) :
    ∃ n, t.pool.walk t.config 0 key = some n ∧
      (key ∈ M.inner → ∃ l ls, t.pool.TerminalHolds t.config n (l :: ls) value) ∧
      (key ∉ M.inner → S key → t.pool.TerminalHolds t.config n [] value) ∧
      (key ∉ M.inner → ¬ S key → t.pool.LeafHolds t.config n value) := by
  obtain ⟨T, ⟨off, hlays, hM⟩, hS⟩ := h
  obtain ⟨h0, hmem, -⟩ := hM.stored hlookup
  have hwalk : t.pool.walk t.config 0 key = some (locate off key.reverse) :=
    hlays.walk_root.mpr ⟨by rwa [List.mem_reverse] at h0, hmem, rfl⟩
  refine ⟨_, hwalk, fun hinner => ?_, fun hinner hkey => ?_, fun _ hkey => ?_⟩
  · obtain ⟨-, hterm⟩ := Outline.mem_ended.mp (hM.inner_subset hinner)
    obtain ⟨others, hkids⟩ := (hlays.sound.labels _).exists_cons hterm
    obtain ⟨x, hx, hx0⟩ := hM.exists_kid_of_inner hinner
    rw [hkids, List.mem_cons] at hx
    obtain ⟨l, ls, rfl⟩ := List.exists_cons_of_ne_nil (List.ne_nil_of_mem (hx.resolve_left hx0))
    exact ⟨l, ls, hlays.terminalHolds hM hlookup hkids⟩
  · have hkids := hM.kids_of_ended hlays.sound ((hS key).mpr hkey) hinner
    exact hlays.terminalHolds hM hlookup hkids
  · exact hlays.leafHolds hM hlookup (mt (hS key).mp hkey)

/-- **Leaves hold values, but for keys that were not leaves at first.** After any calls on a new trie of
the reduced encoding a key that another begins with has its value in a terminal beside its other
children. A key that no other begins with has it in its own slot and no child at all, unless another
began with it at some time since it was last new: then the terminal that it got is its only child, and
keeps the value. -/
theorem leaf_or_terminal_run {o : Options} {t : Trie} (h : Trie.create .reduced o = .ok t)
    (calls : List Call) :
    let p := (t.run calls).1.pool
    let M := (Entries.run .reduced ∅ calls).1
    ∀ key value, M.lookup key = some value → ∃ n, p.walk t.config 0 key = some n ∧
      (key ∈ M.inner → ∃ l ls, p.TerminalHolds t.config n (l :: ls) value) ∧
      (key ∉ M.inner → Entries.WasInner .reduced calls key →
        p.TerminalHolds t.config n [] value) ∧
      (key ∉ M.inner → ¬ Entries.WasInner .reduced calls key → p.LeafHolds t.config n value) := by
  obtain ⟨ho, rfl⟩ := validate_of_create h
  intro p M key value hlookup
  have hplace := (ends_run ho calls).place hlookup
  rwa [(run_holds ho .reduced calls).2.1] at hplace

/-- The key `ab` begins with `a` until it is erased. -/
def extendedOnce : List Call := [.insert [97] 1, .insert [97, 98] 2, .erase [97, 98]]

theorem wasInner_extendedOnce :
    (Entries.run .reduced ∅ extendedOnce).1.lookup [97] = some 1 ∧
      [97] ∉ (Entries.run .reduced ∅ extendedOnce).1.inner ∧
      Entries.WasInner .reduced extendedOnce [97] := by
  have h₁ : refusal .reduced [97] 1 = none := by decide
  have h₂ : refusal .reduced [97, 98] 2 = none := by decide
  have hbefore : ((∅ : Entries).run .reduced (extendedOnce.take 2)).1 =
      Finmap.insert [97, 98] 2 (Finmap.insert [97] 1 ∅) := by
    simp only [extendedOnce, List.take, Entries.run, Entries.perform, h₁, h₂]
  have hafter : ((∅ : Entries).run .reduced extendedOnce).1 =
      Finmap.erase [97, 98] (Finmap.insert [97, 98] 2 (Finmap.insert [97] 1 ∅)) := by
    simp only [extendedOnce, Entries.run, Entries.perform, h₁, h₂]
  have hlookup : (Entries.run .reduced ∅ extendedOnce).1.lookup [97] = some 1 := by
    rw [hafter, Finmap.lookup_erase_ne (by decide), Finmap.lookup_insert_of_ne _ (by decide),
      Finmap.lookup_insert]
  have hmem : [97] ∈ Finmap.insert [97, 98] 2 (Finmap.insert [97] 1 (∅ : Entries)) :=
    Finmap.mem_insert.mpr (.inr (Finmap.mem_insert.mpr (.inl rfl)))
  refine ⟨hlookup, fun hinner => ?_, 2, by decide, ?_, fun m hm hm' => ?_⟩
  · obtain ⟨-, longer, hlonger, -, hne⟩ := Entries.mem_inner.mp hinner
    rw [hafter] at hlonger
    simp only [Finmap.mem_erase, Finmap.mem_insert, Finmap.notMem_empty, or_false] at hlonger
    exact hlonger.2.elim hlonger.1 hne
  · rw [hbefore]
    exact Entries.mem_inner.mpr
      ⟨hmem, [97, 98], Finmap.mem_insert.mpr (.inl rfl), by decide, by decide⟩
  · obtain rfl | rfl : m = 2 ∨ m = 3 := by
      have hlength : extendedOnce.length = 3 := rfl
      omega
    · rwa [hbefore]
    · exact Finmap.mem_of_lookup_eq_some hlookup

/-- Then the value of `a` stays in its terminal. -/
theorem leaf_or_terminal_run_extendedOnce : ∃ t, Trie.create .reduced {} = .ok t ∧ ∃ n,
    (t.run extendedOnce).1.pool.walk t.config 0 [97] = some n ∧
      (t.run extendedOnce).1.pool.TerminalHolds t.config n [] 1 := by
  obtain ⟨hlookup, hinner, hwas⟩ := wasInner_extendedOnce
  have h := (create_eq (o := {}) rfl .reduced).1
  obtain ⟨n, hwalk, -, hterm, -⟩ := leaf_or_terminal_run h _ _ _ hlookup
  exact ⟨_, h, n, hwalk, hterm hinner hwas⟩

/-- So not every key that no other begins with has its value in its own slot: here a slot is in use for
the terminal. -/
theorem exists_terminal_of_unextended : ∃ t, Trie.create .reduced {} = .ok t ∧
    (Entries.run .reduced ∅ extendedOnce).1.lookup [97] = some 1 ∧
    [97] ∉ (Entries.run .reduced ∅ extendedOnce).1.inner ∧
    ∃ n, (t.run extendedOnce).1.pool.walk t.config 0 [97] = some n ∧
      ¬ (t.run extendedOnce).1.pool.LeafHolds t.config n 1 ∧
      ∃ e ∈ (t.run extendedOnce).1.pool.usedSlots,
        ((t.run extendedOnce).1.pool.slot e).check = n := by
  obtain ⟨hlookup, hinner, hwas⟩ := wasInner_extendedOnce
  have hconfig := (run_holds (o := {}) rfl .reduced extendedOnce).2.1
  obtain ⟨n, hwalk, -, hterm, -⟩ := (ends_run (o := {}) rfl extendedOnce).place hlookup
  have hholds := hterm hinner hwas
  rw [hconfig] at hwalk hholds
  exact ⟨_, (create_eq (o := {}) rfl .reduced).1, hlookup, hinner, n, hwalk, hholds.not_leafHolds, _,
    hholds.used, hholds.check⟩

end Trie

end DoubleArrayTrie
