import Mathlib.Data.List.Infix
import DoubleArrayTrie.Proofs.Structure
import DoubleArrayTrie.Proofs.Trie.Branches
import DoubleArrayTrie.Proofs.Trie.Extent

/-!
# Every slot is accounted for

A slot in use is the root, or a node that bytes of a stored key lead to, or a terminal. So how many
are in use can be told from the keys alone, whatever calls they come from: in the standard encoding
each key has a terminal, and in the reduced encoding a key must have one if it goes on, and may have
one that is left over from when it did.

* `Entries.stems`, `Entries.inner`: the beginnings of keys, and the keys that go on.
* `Outline.Holds.ncard_nodes`: how many nodes there are.
* `Outline.Thrifty`: no terminal is left over, as long as nothing is erased.
* `Trie.accounting_run`: the slots in use after any calls on a new trie.
-/

namespace DoubleArrayTrie

/-! ### Keys and their beginnings -/

namespace Entries

/-- The byte strings, other than the empty one, that stored keys begin with. -/
def stems (M : Entries) : Finset Key := M.keys.biUnion fun key => key.inits.toFinset.erase []

/-- The stored keys that other stored keys begin with. -/
def inner (M : Entries) : Finset Key :=
  M.keys.filter fun key => ∃ longer ∈ M.keys, key <+: longer ∧ longer ≠ key

variable {M : Entries} {key : Key}

theorem mem_stems : key ∈ M.stems ↔ key ≠ [] ∧ ∃ longer ∈ M, key <+: longer := by
  simp only [stems, Finset.mem_biUnion, Finmap.mem_keys, Finset.mem_erase, List.mem_toFinset,
    List.mem_inits]
  tauto

theorem stems_empty : stems ∅ = ∅ := by
  rw [stems, Finmap.keys_empty, Finset.biUnion_empty]

theorem mem_inner : key ∈ M.inner ↔ key ∈ M ∧ ∃ longer ∈ M, key <+: longer ∧ longer ≠ key := by
  simp only [inner, Finset.mem_filter, Finmap.mem_keys]

theorem mem_run_erase (e : Encoding) (M : Entries) (keys : List Key) :
    key ∈ (M.run e (keys.map .erase)).1 ↔ key ∈ M ∧ key ∉ keys := by
  induction keys generalizing M with
  | nil => simp [run]
  | cons k keys ih =>
    refine (ih (M.erase k)).trans ?_
    rw [Finmap.mem_erase, List.mem_cons, not_or]
    tauto

/-- Once all keys are erased, in any order, no entry is left. -/
theorem run_erase_eq_empty (e : Encoding) {keys : List Key} (h : ∀ key ∈ M, key ∈ keys) :
    (M.run e (keys.map .erase)).1 = ∅ := by
  refine Finmap.ext_lookup fun key => ?_
  rw [Finmap.lookup_empty, Finmap.lookup_eq_none, mem_run_erase]
  exact fun hkey => hkey.2 (h key hkey.1)

end Entries

/-! ### The nodes of an outline -/

namespace Outline

variable {c : Config} {T : Outline} {M : Entries} {q t : Trail} {key : Key}

/-- The stored keys that have a terminal. -/
def ended (T : Outline) (M : Entries) : Finset Key := M.keys.filter fun key => 0 ∈ T.kids key.reverse

theorem mem_ended : key ∈ T.ended M ↔ key ∈ M ∧ 0 ∈ T.kids key.reverse := by
  rw [ended, Finset.mem_filter, Finmap.mem_keys]

/-- No key has a zero byte, so none of its beginnings has. -/
theorem Holds.zero_notMem_stem (hM : T.Holds c [] fun q => M.lookup q.reverse) (h : key ∈ M.stems) :
    0 ∉ key := by
  obtain ⟨-, longer, hlonger, hle⟩ := Entries.mem_stems.mp h
  obtain ⟨value, hvalue⟩ := Finmap.mem_iff.mp hlonger
  have h0 := (hM.stored hvalue).1
  rw [List.mem_reverse] at h0
  exact fun hzero => h0 (hle.subset hzero)

theorem Holds.mem_iff_stems (hM : T.Holds c [] fun q => M.lookup q.reverse) (hq0 : q ≠ [])
    (h0 : 0 ∉ q) : T.Mem q ↔ q.reverse ∈ M.stems := by
  have hbegins := mem_iff_begins M [] q.reverse
  rw [List.reverse_reverse] at hbegins
  rw [hM.mem q h0, hbegins, Entries.mem_stems]
  simp [hq0]

/-- A child that is no terminal is one more byte on the way to a key. -/
theorem Holds.mem_kids_iff {x : UInt8} (hM : T.Holds c [] fun q => M.lookup q.reverse)
    (hq : T.Mem q) (h0 : 0 ∉ q) (hx : x ≠ 0) : x ∈ T.kids q ↔ q.reverse ++ [x] ∈ M.stems := by
  have hchild : 0 ∉ x :: q := by
    rw [List.mem_cons, not_or]
    exact ⟨hx.symm, h0⟩
  have hmem : x ∈ T.kids q ↔ T.Mem (x :: q) := (and_iff_right hq).symm
  rw [hmem, hM.mem_iff_stems (by simp) hchild, List.reverse_cons]

/-- A terminal is that of a key. -/
theorem Holds.mem_terminal_iff (hT : T.Sound c) (hM : T.Holds c [] fun q => M.lookup q.reverse) :
    T.Mem (0 :: q) ↔ q.reverse ∈ T.ended M := by
  rw [mem_ended, List.reverse_reverse]
  refine ⟨fun hmem => ⟨?_, hmem.2⟩, fun hkey => ⟨?_, hkey.2⟩⟩
  · have h0 := Pool.zero_notMem_trail hT hmem.1 (Pool.head?_ne_zero hT hmem.2)
    have hvalue := hM.value q hmem.1 h0
    rw [value?, if_pos hmem.2] at hvalue
    refine not_not.mp (mt Finmap.lookup_eq_none.mpr fun hnone => ?_)
    rw [hnone] at hvalue
    simp at hvalue
  · obtain ⟨value, hvalue⟩ := Finmap.mem_iff.mp hkey.1
    have hmem := (hM.stored hvalue).2.1
    rwa [List.reverse_reverse] at hmem

/-- **The nodes of an outline** are the beginnings of keys, and the terminals. -/
theorem Holds.mem_iff (hT : T.Sound c) (hM : T.Holds c [] fun q => M.lookup q.reverse) :
    t ≠ [] ∧ T.Mem t ↔
      (∃ stem ∈ M.stems, stem.reverse = t) ∨ ∃ key ∈ T.ended M, 0 :: key.reverse = t := by
  constructor
  · rintro ⟨ht0, ht⟩
    obtain ⟨l, q, rfl⟩ := List.exists_cons_of_ne_nil ht0
    by_cases hl : l = 0
    · subst hl
      exact .inr ⟨_, (hM.mem_terminal_iff hT).mp ht, by rw [List.reverse_reverse]⟩
    · have h0 := Pool.zero_notMem_trail hT ht fun hhead => hl (Option.some.inj hhead)
      exact .inl ⟨_, (hM.mem_iff_stems ht0 h0).mp ht, List.reverse_reverse _⟩
  · rintro (⟨stem, hstem, rfl⟩ | ⟨key, hkey, rfl⟩)
    · have hne : stem.reverse ≠ [] := by simpa using (Entries.mem_stems.mp hstem).1
      have h0 : 0 ∉ stem.reverse := by
        rw [List.mem_reverse]
        exact hM.zero_notMem_stem hstem
      exact ⟨hne, (hM.mem_iff_stems hne h0).mpr (by rwa [List.reverse_reverse])⟩
    · exact ⟨by simp, (hM.mem_terminal_iff hT).mpr (by rwa [List.reverse_reverse])⟩

/-- **How many nodes there are** besides the root. -/
theorem Holds.ncard_nodes (hT : T.Sound c) (hM : T.Holds c [] fun q => M.lookup q.reverse) :
    {t : Trail | t ≠ [] ∧ T.Mem t}.ncard = M.stems.card + (T.ended M).card := by
  have hset : {t : Trail | t ≠ [] ∧ T.Mem t} =
      ↑(M.stems.image List.reverse ∪ (T.ended M).image fun key => 0 :: key.reverse) := by
    ext t
    rw [Set.mem_ofPred_eq, hM.mem_iff hT, Finset.mem_coe, Finset.mem_union, Finset.mem_image,
      Finset.mem_image]
  have hdisjoint : Disjoint (M.stems.image List.reverse)
      ((T.ended M).image fun key => 0 :: key.reverse) := by
    rw [Finset.disjoint_left]
    intro t hstem hterm
    obtain ⟨stem, hmem, rfl⟩ := Finset.mem_image.mp hstem
    obtain ⟨key, -, hkey⟩ := Finset.mem_image.mp hterm
    refine hM.zero_notMem_stem hmem (List.mem_reverse.mp ?_)
    rw [← hkey]
    exact List.mem_cons_self
  rw [hset, Set.ncard_coe_finset, Finset.card_union_of_disjoint hdisjoint,
    Finset.card_image_of_injective _ List.reverse_injective,
    Finset.card_image_of_injective _ fun key key' h => List.reverse_injective (List.cons.inj h).2]

/-! ### Which keys have a terminal -/

theorem ended_subset : T.ended M ⊆ M.keys := Finset.filter_subset ..

/-- In the standard encoding all keys have a terminal. -/
theorem Holds.ended_of_standard (hM : T.Holds c [] fun q => M.lookup q.reverse)
    (he : c.encoding = .standard) : T.ended M = M.keys := by
  refine Finset.Subset.antisymm ended_subset fun key hkey => ?_
  obtain ⟨value, hlookup⟩ := Finmap.mem_iff.mp (Finmap.mem_keys.mp hkey)
  refine mem_ended.mpr ⟨Finmap.mem_keys.mp hkey, ?_⟩
  have hvalue := (hM.stored hlookup).2.2
  unfold value? leafValue? at hvalue
  rw [he] at hvalue
  split_ifs at hvalue with hterm hleaf
  · exact hterm
  · simp [Encoding.holdsValue] at hleaf

/-- A key that other keys begin with has a terminal. -/
theorem Holds.inner_subset (hM : T.Holds c [] fun q => M.lookup q.reverse) :
    M.inner ⊆ T.ended M := by
  intro key hkey
  obtain ⟨hkey, longer, hlonger, hle, hne⟩ := Entries.mem_inner.mp hkey
  obtain ⟨value, hlookup⟩ := Finmap.mem_iff.mp hkey
  obtain ⟨value', hlookup'⟩ := Finmap.mem_iff.mp hlonger
  refine mem_ended.mpr ⟨hkey, by_contra fun hterm => hne ?_⟩
  have hvalue := (hM.stored hlookup).2.2
  rw [value?, if_neg hterm] at hvalue
  have hleaf := (leafValue?_eq_some hvalue).2.1
  exact List.reverse_injective
    (eq_of_leaf_suffix hleaf (hM.stored hlookup').2.1 (List.reverse_suffix.mpr hle))

/-- A child that is no terminal is on the way to a longer key. -/
theorem Holds.mem_inner_of_kid {x : UInt8} (hM : T.Holds c [] fun q => M.lookup q.reverse)
    (hkey : key ∈ M) (hx : x ∈ T.kids key.reverse) (hx0 : x ≠ 0) : key ∈ M.inner := by
  obtain ⟨value, hlookup⟩ := Finmap.mem_iff.mp hkey
  obtain ⟨h0, hmem, -⟩ := hM.stored hlookup
  have hstem := (hM.mem_kids_iff hmem h0 hx0).mp hx
  rw [List.reverse_reverse] at hstem
  obtain ⟨-, longer, hlonger, hle⟩ := Entries.mem_stems.mp hstem
  refine Entries.mem_inner.mpr ⟨hkey, longer, hlonger, (List.prefix_append ..).trans hle, ?_⟩
  rintro rfl
  have := hle.length_le
  simp at this

/-- A terminal that stands alone is that of a key which no other key begins with. -/
theorem Holds.kids_of_ended (hM : T.Holds c [] fun q => M.lookup q.reverse) (hT : T.Sound c)
    (hkey : key ∈ T.ended M) (hinner : key ∉ M.inner) : T.kids key.reverse = [0] := by
  obtain ⟨hmem, hterm⟩ := mem_ended.mp hkey
  have hlabels := hT.labels key.reverse
  obtain ⟨others, hkids⟩ := hlabels.exists_cons hterm
  rw [hkids] at hlabels ⊢
  refine congrArg (0 :: ·) (List.eq_nil_iff_forall_not_mem.mpr fun x hx => hinner ?_)
  refine hM.mem_inner_of_kid hmem (x := x) (by rw [hkids]; exact List.mem_cons_of_mem _ hx) ?_
  rintro rfl
  exact hlabels.tail hx

/-! ### Without erasing -/

/-- No node has a terminal and no other child. -/
def Thrifty (T : Outline) : Prop := ∀ q, T.kids q ≠ [0]

/-- Then only keys that other keys begin with have a terminal. -/
theorem Holds.ended_of_thrifty (hT : T.Sound c) (hM : T.Holds c [] fun q => M.lookup q.reverse)
    (hthrifty : T.Thrifty) : T.ended M = M.inner := by
  refine Finset.Subset.antisymm (fun key hkey => by_contra fun hinner => ?_) hM.inner_subset
  exact hthrifty _ (hM.kids_of_ended hT hkey hinner)

theorem mem_kids_ensure (c : Config) (T : Outline) (q : Trail) (x : UInt8) :
    x ∈ (T.ensure c q x).kids q := by
  unfold ensure
  split_ifs with hx
  · exact hx
  · rw [kids_graft_self]
    exact mem_insertLabel.mpr (.inl rfl)

/-- A leaf on the way down gives its value to a terminal, but gets another child at once. -/
theorem kids_of_extend {ls : List UInt8} (h0 : 0 ∉ ls) (h : (T.extend c q ls).kids t = [0]) :
    T.kids t = [0] := by
  induction ls generalizing T q with
  | nil => exact h
  | cons x ls ih =>
    rw [List.mem_cons, not_or] at h0
    have hstep := ih h0.2 h
    by_cases ht : t = q
    · subst ht
      have hx := mem_kids_ensure c (T.openLeaf c t) t x
      rw [hstep, List.mem_singleton] at hx
      exact absurd hx.symm h0.1
    · rwa [kids_step_of_ne x ht] at hstep

/-- A leaf of the reduced encoding takes a value itself. -/
theorem kids_of_setValue {w : Int} (hT : T.Sound c) (he : c.encoding = .reduced) (hq : T.Mem q)
    (hq0 : q ≠ []) (h0 : 0 ∉ q) (h : (T.setValue c q w).kids t = [0]) : T.kids t = [0] := by
  have hleaf : T.kids q = [] → c.encoding.holdsValue (T.word q) = true := by
    intro hkids
    obtain ⟨l, u, rfl⟩ := List.exists_cons_of_ne_nil hq0
    have hl : l ≠ 0 := fun hl => h0 (by rw [hl]; exact List.mem_cons_self)
    have hoffset := hT.leaf l u hl hq hkids
    rw [he] at hoffset ⊢
    unfold Encoding.offset? at hoffset
    split_ifs at hoffset with hneg
    exact decide_eq_true (by simp only [Encoding.offset] at hneg; omega)
  unfold Outline.setValue ensure at h
  split_ifs at h with hset hterm
  · exact h
  · exact h
  · rw [kids_setWord] at h
    by_cases ht : t = q
    · subst ht
      rw [kids_graft_self, insertLabel_zero hterm] at h
      have hkids : T.kids t = [] := (List.cons.inj h).2
      exact absurd ⟨hkids, hleaf hkids⟩ hset
    · rwa [kids_graft_of_ne 0 ht] at h

/-- **Storing a value leaves no terminal without siblings**, where leaves hold values, but for those
that had none before. -/
theorem kids_of_store {w : Int} (hT : T.Sound c) (he : c.encoding = .reduced) (hkey : key ≠ [])
    (h0 : 0 ∉ key) (h : (T.store c key w).kids t = [0]) : T.kids t = [0] := by
  obtain ⟨hsound, hmem⟩ := hT.extend (q := []) trivial (by simp) h0
  rw [List.append_nil] at hmem
  refine kids_of_extend h0 (kids_of_setValue hsound he hmem ?_ ?_ h)
  · simpa
  · rwa [List.mem_reverse]

end Outline

/-! ### Calls -/

/-- A call that erases nothing. -/
def Call.Builds : Call → Prop
  | .insert .. | .insertAll _ | .insertKeys _ => True
  | .erase _ => False

instance : DecidablePred Call.Builds
  | .insert .. | .insertAll _ | .insertKeys _ => isTrue trivial
  | .erase _ => isFalse id

namespace Trie

variable {t : Trie} {M : Entries} {T : Outline} {key : Key}

/-! ### Calls that erase nothing -/

section Builds

variable {P : Trie → Entries → Prop} {e : Encoding}
  (hstore : ∀ {t : Trie} {M : Entries} {key : Key} {value : Int32}, t.config.encoding = e → P t M →
    refusal e key value = none →
      P ⟨t.config, (t.pool.store t.config key value).1⟩ (M.insert key value))

include hstore

theorem insertAll_of_store (he : t.config.encoding = e) (h : P t M) (entries : List (Key × Int32)) :
    P (t.insertAll entries).1 (M.insertAll e entries).1 := by
  induction entries generalizing t M with
  | nil => exact h
  | cons entry entries ih =>
    obtain ⟨key, value⟩ := entry
    unfold Trie.insertAll Entries.insertAll
    rw [admit_eq, he]
    cases hrefusal : refusal e key value with
    | some err => exact h
    | none =>
      refine ih ?_ (hstore he h hrefusal)
      exact he

theorem insertKeys_of_store (he : t.config.encoding = e) (h : P t M) (keys : List Key)
    (position : Nat) : P (t.insertKeys keys position).1 (M.insertKeys e position keys).1 := by
  induction keys generalizing t M position with
  | nil => exact h
  | cons key keys ih =>
    unfold Trie.insertKeys Entries.insertKeys
    by_cases hposition : 2147483647 < position
    · rw [if_pos hposition, if_pos hposition]
      exact h
    · rw [if_neg hposition, if_neg hposition, admit_eq, he]
      cases hrefusal : refusal e key (Int32.ofNat position) with
      | some err => exact h
      | none =>
        refine ih ?_ (hstore he h hrefusal) (position + 1)
        exact he

/-- **What storing one entry keeps, a call that erases nothing keeps.** -/
theorem perform_of_builds (he : t.config.encoding = e) (h : P t M) {call : Call}
    (hcall : call.Builds) : P (t.perform call).1 (M.perform e call).1 := by
  cases call with
  | insert key value =>
    unfold Trie.perform Entries.perform
    dsimp only
    rw [insert_eq, he]
    cases hrefusal : refusal e key value with
    | some err => exact h
    | none => exact hstore he h hrefusal
  | insertAll entries => exact insertAll_of_store hstore he h entries
  | insertKeys keys => exact insertKeys_of_store hstore he h keys 0
  | erase key => exact hcall.elim

end Builds

/-! ### Slots in use -/

/-- **The slots in use** are the root, a node for each beginning of a key, and the terminals. -/
theorem Shows.freeSlots (h : t.Shows T M) (hsize : t.pool.size < 18446744073709551616) :
    t.pool.freeSlots + (1 + M.stems.card + (T.ended M).card) = t.pool.size := by
  obtain ⟨off, hlays, hholds⟩ := h
  have hcount := hlays.freeSlots_add hsize
  rw [hholds.ncard_nodes hlays.sound] at hcount
  omega

/-- The trie shows an outline in which no terminal is left over. -/
def Thrifty (t : Trie) (M : Entries) : Prop := ∃ T, t.Shows T M ∧ T.Thrifty

namespace Thrifty

theorem store {value : Int32} (h : t.Thrifty M) (he : t.config.encoding = .reduced)
    (hrefusal : refusal t.config.encoding key value = none) :
    Trie.Thrifty ⟨t.config, (t.pool.store t.config key value).1⟩ (M.insert key value) := by
  obtain ⟨T, hT, hthrifty⟩ := h
  obtain ⟨hkey, h0, -⟩ := refusal_eq_none hrefusal
  refine ⟨_, (Shows.store hT hrefusal).1, fun q hq => hthrifty q ?_⟩
  obtain ⟨off, hlays, -⟩ := hT
  exact Outline.kids_of_store hlays.sound he hkey h0 hq

theorem holds (h : t.Thrifty M) : t.Holds M := by
  obtain ⟨T, hT, -⟩ := h
  exact hT.holds

/-- A call that erases nothing leaves no terminal over. -/
theorem perform {call : Call} (h : t.Thrifty M) (he : t.config.encoding = .reduced)
    (hcall : call.Builds) : (t.perform call).1.Thrifty (M.perform t.config.encoding call).1 :=
  perform_of_builds (P := Trie.Thrifty)
    (fun he' h hrefusal => h.store (he'.trans he) (by rwa [he'])) rfl h hcall

/-- So do several calls. -/
theorem run (h : t.Thrifty M) (he : t.config.encoding = .reduced) {calls : List Call}
    (hcalls : ∀ call ∈ calls, call.Builds) :
    (t.run calls).1.Thrifty (M.run t.config.encoding calls).1 := by
  induction calls generalizing t M with
  | nil => exact h
  | cons call calls ih =>
    rw [List.forall_mem_cons] at hcalls
    have hconfig := (h.holds.perform call).2.1
    have hnext := ih (h.perform he hcalls.1) (by rw [hconfig, he]) hcalls.2
    rw [hconfig] at hnext
    exact hnext

end Thrifty

/-- A trie without entries uses no slot but that of the root. -/
theorem Holds.bare (h : t.Holds ∅) (hsize : t.pool.size < 18446744073709551616) :
    t.pool.freeSlots + 1 = t.pool.size ∧ ∀ key ≠ [], t.find key = .absent := by
  refine ⟨?_, fun key hkey => by rw [h.find, Entries.answer_empty hkey]⟩
  obtain ⟨T, hT⟩ := h
  have hcount := Shows.freeSlots hT hsize
  have hended := Finset.subset_empty.mp (Finmap.keys_empty ▸ T.ended_subset)
  rwa [Entries.stems_empty, hended, Finset.card_empty] at hcount

theorem size_erase (t : Trie) (key : Key) : (t.erase key).1.pool.size = t.pool.size :=
  Pool.size_erase ..

theorem size_run_erase (t : Trie) (keys : List Key) :
    (t.run (keys.map .erase)).1.pool.size = t.pool.size := by
  induction keys generalizing t with
  | nil => rfl
  | cons key keys ih => exact (ih _).trans (t.size_erase key)

/-- **Every slot is accounted for**, after any calls on a new trie. In the standard encoding the
slots in use are the root, one for each beginning of a key and one for each key. In the reduced
encoding there is one less for each key that has no terminal: a key that others begin with has one,
and no other has if nothing was erased. When all keys are erased only the root is in use. -/
theorem accounting_run {o : Options} {e : Encoding} {t : Trie} (h : Trie.create e o = .ok t)
    (calls : List Call) (hsize : (t.run calls).1.pool.size < 18446744073709551616) :
    let p := (t.run calls).1.pool
    let M := (Entries.run e ∅ calls).1
    (e = .standard → p.freeSlots + (1 + M.stems.card + M.keys.card) = p.size) ∧
      (e = .reduced → p.freeSlots + (1 + M.stems.card + M.inner.card) ≤ p.size ∧
        p.size ≤ p.freeSlots + (1 + M.stems.card + M.keys.card) ∧
        ((∀ call ∈ calls, call.Builds) →
          p.freeSlots + (1 + M.stems.card + M.inner.card) = p.size)) ∧
      ∀ keys : List Key, (∀ key ∈ M, key ∈ keys) →
        let u := ((t.run calls).1.run (keys.map .erase)).1
        u.pool.freeSlots + 1 = u.pool.size ∧ ∀ key ≠ [], u.find key = .absent := by
  obtain ⟨ho, rfl⟩ := validate_of_create h
  obtain ⟨hholds, hconfig, -⟩ := run_holds ho e calls
  obtain ⟨T, hT⟩ : ∃ T, Trie.Shows _ T _ := hholds
  have hcount := hT.freeSlots hsize
  obtain ⟨off, hlays, hM⟩ := id hT
  have hle := Finset.card_le_card (T.ended_subset (M := (Entries.run e ∅ calls).1))
  refine ⟨fun he => ?_, fun he => ⟨?_, ?_, fun hcalls => ?_⟩, fun keys hkeys => ?_⟩
  · rw [← hM.ended_of_standard (by rw [hconfig, he])]
    exact hcount
  · have hinner := Finset.card_le_card hM.inner_subset
    omega
  · omega
  · have hstart : (Trie.empty { o with encoding := e }).Thrifty ∅ :=
      ⟨.empty, shows_empty (create_eq ho e).2, fun _ => by simp [Outline.empty]⟩
    obtain ⟨U, hU, hthrifty⟩ := hstart.run he hcalls
    have hend := hU.freeSlots hsize
    obtain ⟨off', hlays', hM'⟩ := hU
    rwa [hM'.ended_of_thrifty hlays'.sound hthrifty] at hend
  · have herased := (hT.holds.run (keys.map .erase)).1
    rw [Entries.run_erase_eq_empty _ hkeys] at herased
    exact herased.bare (by rwa [size_run_erase])

/-- A key without a terminal, whose slots are free again when it is erased. -/
theorem accounting_run_reduced : ∃ t, Trie.create .reduced {} = .ok t ∧
    (t.run [.insert [97] 1]).1.pool.freeSlots +
        (1 + (Entries.run .reduced ∅ [.insert [97] 1]).1.stems.card +
          (Entries.run .reduced ∅ [.insert [97] 1]).1.inner.card) =
      (t.run [.insert [97] 1]).1.pool.size ∧
    ((t.run [.insert [97] 1]).1.run [.erase [97]]).1.find [97] = .absent := by
  have h := (create_eq (o := {}) rfl .reduced).1
  have hcap := capacity_run_singleton (c := { encoding := .reduced }) rfl 97 1
  have hle := (run_holds (o := {}) rfl .reduced [.insert [97] 1]).1.kept.size_le
  obtain ⟨-, hreduced, herased⟩ :=
    accounting_run h [.insert [97] 1] ((hle.trans_eq hcap).trans_lt (by decide))
  refine ⟨_, h, (hreduced rfl).2.2 (by decide), (herased [[97]] fun key hkey => ?_).2 [97] (by simp)⟩
  have hadmitted : refusal .reduced [97] 1 = none := by decide
  simpa [Entries.run, Entries.perform, hadmitted, Finmap.notMem_empty] using hkey

end Trie

end DoubleArrayTrie
