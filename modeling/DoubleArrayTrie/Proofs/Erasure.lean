import DoubleArrayTrie.Image.Basic
import DoubleArrayTrie.Proofs.Structure
import DoubleArrayTrie.Proofs.Trie.Extent

/-!
# What erasing a key gives back

When a key is erased the slot of its value is given back, and with it the nodes that no other key
goes through. Nothing else is: all nodes that are left stay in their slots, and the siblings among
them in their order. A key that is not stored cannot be erased, and then nothing is written at all.

* `Pool.erase_of_find`: a key that is not found, in any pool whatever.
* `Outline.Holds.mem_erase_iff`: the nodes that are left.
* `Trie.Erases`: what is given back, and what is not.
* `Trie.erases_run`: this is so after any calls on a new trie.
-/

namespace DoubleArrayTrie

/-! ### Keys that are not stored -/

/-- **Erasing a key that is not found** writes nothing. -/
theorem Pool.erase_of_find {c : Config} {p : Pool} {key : Key}
    (h : p.find c key = .noValue ∨ p.find c key = .absent) : (p.erase c key).1 = p := by
  unfold Pool.find at h
  unfold Pool.erase
  obtain hwalk | ⟨n, hwalk⟩ := Option.eq_none_or_eq_some (p.walk c 0 key)
  · simp only [hwalk]
  · simp only [hwalk] at h ⊢
    rcases h with h | h <;> rw [h]

/-! ### The nodes that are left -/

namespace Outline

variable {c : Config} {T : Outline} {M : Entries} {q t u : Trail} {key : Key}

theorem mem_mono {U : Outline} (h : ∀ q, U.kids q ⊆ T.kids q) (hu : U.Mem u) : T.Mem u := by
  induction u with
  | nil => trivial
  | cons l u ih => exact ⟨ih hu.1, h u hu.2⟩

theorem mem_of_mem_prune (hu : (T.prune c t).Mem u) : T.Mem u :=
  mem_mono (fun q => (kids_prune T t q).subset) hu

/-- A leaf that goes is gone. -/
theorem Sound.not_mem_prune (hT : T.Sound c) (ht0 : t ≠ []) : ¬ (T.prune c t).Mem t := by
  obtain ⟨l, q, rfl⟩ := List.exists_cons_of_ne_nil ht0
  have hcut : l ∉ (T.cut c q l).kids q := by
    rw [kids_cut_self]
    exact (hT.labels q).nodup.not_mem_erase
  unfold prune
  split_ifs
  · exact fun hmem => hcut ((kids_prune _ q q).subset hmem.2)
  · exact fun hmem => hcut hmem.2

/-- With a leaf nothing goes but nodes above it. -/
theorem Sound.mem_prune_of_not_suffix (hT : T.Sound c) (ht : T.Mem t) (hleaf : T.kids t = [])
    (hu : T.Mem u) (hut : ¬ u <:+ t) : (T.prune c t).Mem u := by
  induction t generalizing T with
  | nil => exact hu
  | cons l q ih =>
    have hmem := (hT.mem_cut (c := c) hleaf u).mpr ⟨hu, fun heq => hut (heq ▸ List.suffix_rfl)⟩
    unfold prune
    split_ifs with honly
    · refine ih (hT.cut ht.2 hleaf) ((hT.mem_cut hleaf q).mpr ⟨ht.1, by simp⟩) ?_ hmem
        fun huq => hut (huq.trans (List.suffix_cons l q))
      rw [kids_cut_self, honly.1]
      exact List.erase_cons_head ..
    · exact hmem

theorem eq_or_suffix_of_suffix_valueTrail (h : u <:+ T.valueTrail q) :
    u = T.valueTrail q ∨ u <:+ q := by
  unfold valueTrail at h ⊢
  split_ifs at h ⊢
  · exact List.suffix_cons_iff.mp h
  · exact .inr h

/-- A node on the way to another key is left, and no other on the way to the key. -/
theorem Holds.mem_iff_of_suffix (hM : T.Holds c [] fun q => (M.erase key).lookup q.reverse)
    (h0 : 0 ∉ key.reverse) (hu0 : u ≠ []) (hu : u <:+ key.reverse) :
    T.Mem u ↔ ∃ other ∈ M, other ≠ key ∧ u.reverse <+: other := by
  have hbegins := mem_iff_begins (M.erase key) [] u.reverse
  rw [List.reverse_reverse] at hbegins
  rw [hM.mem u fun hzero => h0 (hu.subset hzero), hbegins]
  simp only [List.reverse_nil, List.prefix_nil, List.reverse_eq_nil_iff, hu0, false_or,
    Finmap.mem_erase]
  constructor
  · rintro ⟨other, ⟨hne, hother⟩, hle⟩
    exact ⟨other, hother, hne, hle⟩
  · rintro ⟨other, hother, hne, hle⟩
    exact ⟨other, ⟨hne, hother⟩, hle⟩

/-- **The nodes that are left** when a stored key is erased are those that neither hold its value
nor are on the way to it alone. -/
theorem Holds.mem_erase_iff (hT : T.Sound c) (hM : T.Holds c [] fun q => M.lookup q.reverse)
    (hkey : key ∈ M) : (T.erase c key.reverse).Mem u ↔ T.Mem u ∧ ¬ (u = T.valueTrail key.reverse ∨
      u ≠ [] ∧ u <:+ key.reverse ∧ ∀ other ∈ M, other ≠ key → ¬ u.reverse <+: other) := by
  obtain ⟨value, hlookup⟩ := Finmap.mem_iff.mp hkey
  obtain ⟨h0, hmem, hvalue⟩ := hM.stored hlookup
  obtain ⟨hne, hleaf⟩ := hT.leaf_valueTrail hvalue
  have herase := hM.erase hT hmem h0 (by rw [List.reverse_reverse, hlookup]; simp)
  rw [← lookup_erase_reverse] at herase
  constructor
  · intro hu
    refine ⟨mem_of_mem_prune hu, ?_⟩
    rintro (rfl | ⟨hu0, hle, hnone⟩)
    · exact hT.not_mem_prune hne hu
    · obtain ⟨other, hother, hother', hle'⟩ := (herase.mem_iff_of_suffix h0 hu0 hle).mp hu
      exact hnone other hother hother' hle'
  · rintro ⟨hu, hnot⟩
    push Not at hnot
    by_cases hle : u <:+ T.valueTrail key.reverse
    · have hle' := (eq_or_suffix_of_suffix_valueTrail hle).resolve_left hnot.1
      by_cases hu0 : u = []
      · rw [hu0]
        trivial
      · exact (herase.mem_iff_of_suffix h0 hu0 hle').mpr (hnot.2 hu0 hle')
    · exact hT.mem_prune_of_not_suffix (mem_valueTrail hmem) hleaf hu hle

end Outline

/-! ### Slots -/

namespace Trie

/-- What is given back when a key is erased: the slot of its value, and the nodes that lead to no
other key. -/
def Unshared (t : Trie) (M : Entries) (key : Key) (e : Nat) : Prop :=
  (∃ n, t.pool.walk t.config 0 key = some n ∧ t.pool.valueSlot t.config n = e) ∨
    ∃ stem ≠ [], stem <+: key ∧ (∀ other ∈ M, other ≠ key → ¬ stem <+: other) ∧
      t.pool.walk t.config 0 stem = some e

/-- What erasing a stored key does: -/
structure Erases (t : Trie) (M : Entries) (key : Key) (u : Trie) : Prop where
  /-- The slots of the key alone are given back, and no others. -/
  freed : ∀ e, e ∈ u.pool.usedSlots ↔ e ∈ t.pool.usedSlots ∧ ¬ t.Unshared M key e
  /-- No block goes out of use. -/
  size : u.pool.size = t.pool.size
  /-- The nodes that are left stay where they are. -/
  still : ∀ e q, u.pool.Reaches u.config e q → t.pool.Reaches t.config e q
  /-- So what is found for other keys is found there. -/
  get? : ∀ other ≠ key, u.get? other = t.get? other
  /-- The children of a node that are left, and no others, are its children, in the same order. -/
  order : ∀ e q, u.pool.Reaches u.config e q → q.head? ≠ some 0 → ∃ ls ms,
    t.pool.Children t.config e ls ∧ u.pool.Children u.config e ms ∧ ms.Sublist ls ∧
      ∀ l ∈ ls, l ∈ ms ↔ t.pool.offsetOf t.config e ^^^ l.toNat ∈ u.pool.usedSlots

end Trie

namespace Pool.Lays

variable {c : Config} {p : Pool} {T : Outline} {off : Trail → Nat} {M : Entries} {key : Key} {v : Trail}

/-- Where a stored key is found. -/
theorem get?_eq (h : p.Lays c T off) (hM : T.Holds c [] fun q => M.lookup q.reverse) (key : Key) :
    Trie.get? ⟨c, p⟩ key =
      (M.lookup key).map fun value => ⟨value, key.length, locate off key.reverse⟩ := by
  unfold Trie.get?
  dsimp only
  cases hlookup : M.lookup key with
  | some value =>
    obtain ⟨h0, hmem, hvalue⟩ := hM.stored hlookup
    rw [h.walk_root.mpr ⟨by rwa [List.mem_reverse] at h0, hmem, rfl⟩]
    dsimp only
    rw [h.valueAt_eq hmem (Outline.ne_terminal h0), hvalue]
    exact congrArg (fun value => some (Match.mk value key.length (locate off key.reverse)))
      (Int32.ofInt_toInt value)
  | none =>
    cases hwalk : p.walk c 0 key with
    | none => rfl
    | some n =>
      obtain ⟨h0, hmem, rfl⟩ := h.walk_root.mp hwalk
      have h0' : 0 ∉ key.reverse := by rwa [List.mem_reverse]
      dsimp only
      rw [h.valueAt_eq hmem (Outline.ne_terminal h0'), hM.value _ hmem h0', List.reverse_reverse,
        hlookup]
      rfl

/-- The slots that are given back are those of the nodes that go. -/
theorem unshared_iff (h : p.Lays c T off) (hM : T.Holds c [] fun q => M.lookup q.reverse)
    (hkey : key ∈ M) (hv : T.Mem v) : Trie.Unshared ⟨c, p⟩ M key (locate off v) ↔
      v = T.valueTrail key.reverse ∨
        v ≠ [] ∧ v <:+ key.reverse ∧ ∀ other ∈ M, other ≠ key → ¬ v.reverse <+: other := by
  obtain ⟨value, hlookup⟩ := Finmap.mem_iff.mp hkey
  obtain ⟨h0, hmem, hvalue⟩ := hM.stored hlookup
  have hslot := h.valueSlot_eq hmem hvalue
  have h0' : 0 ∉ key := by rwa [List.mem_reverse] at h0
  refine or_congr ⟨?_, ?_⟩ ⟨?_, ?_⟩
  · rintro ⟨n, hwalk, hn⟩
    obtain ⟨-, -, rfl⟩ := h.walk_root.mp hwalk
    exact (h.locate_inj (Outline.mem_valueTrail hmem) hv (hslot.symm.trans hn)).symm
  · rintro rfl
    exact ⟨_, h.walk_root.mpr ⟨h0', hmem, rfl⟩, hslot⟩
  · rintro ⟨stem, hstem, hle, hnone, hwalk⟩
    obtain ⟨-, hmem', hloc⟩ := h.walk_root.mp hwalk
    obtain rfl := h.locate_inj hmem' hv hloc
    rw [List.reverse_reverse]
    exact ⟨by simpa using hstem, List.reverse_suffix.mpr hle, hnone⟩
  · rintro ⟨hv0, hle, hnone⟩
    refine ⟨v.reverse, by simpa using hv0, ?_, hnone, h.walk_root.mpr ?_⟩
    · rwa [← List.reverse_suffix, List.reverse_reverse]
    · rw [List.reverse_reverse, List.mem_reverse]
      exact ⟨fun hzero => h0 (hle.subset hzero), hv, rfl⟩

end Pool.Lays

namespace Trie

variable {t : Trie} {M : Entries} {key : Key}

/-- **Erasing a stored key** gives back the slots of the key alone, and moves nothing. -/
theorem Holds.erases (h : t.Holds M) (hkey : key ∈ M) : t.Erases M key (t.erase key).1 := by
  obtain ⟨c, p⟩ := t
  obtain ⟨T, off, hlays, hM⟩ := h
  obtain ⟨value, hlookup⟩ := Finmap.mem_iff.mp hkey
  obtain ⟨h0, hmem, hvalue⟩ := hM.stored hlookup
  obtain ⟨hlays', -⟩ := hlays.erase (by rwa [List.mem_reverse] at h0) hmem hvalue
  have hM' := hM.erase hlays.sound hmem h0 (by rw [List.reverse_reverse, hlookup]; simp)
  rw [← lookup_erase_reverse] at hM'
  have hleft : ∀ {v}, (T.erase c key.reverse).Mem v ↔ _ := hM.mem_erase_iff hlays.sound hkey
  have hused : ∀ {e}, e ∈ (p.erase c key).1.usedSlots ↔ _ := hlays'.mem_usedSlots
  refine
    { freed := fun e => ?freed
      size := Pool.size_erase ..
      still := fun e q hreach => ?still
      get? := fun other hother => ?get
      order := fun e q hreach hterm => ?order }
  case freed =>
    refine hused.trans ?_
    rw [hlays.mem_usedSlots]
    constructor
    · rintro ⟨v, hv, rfl⟩
      obtain ⟨hv, hnot⟩ := hleft.mp hv
      exact ⟨⟨v, hv, rfl⟩, mt (hlays.unshared_iff hM hkey hv).mp hnot⟩
    · rintro ⟨⟨v, hv, rfl⟩, hnot⟩
      exact ⟨v, hleft.mpr ⟨hv, mt (hlays.unshared_iff hM hkey hv).mpr hnot⟩, rfl⟩
  case still =>
    obtain ⟨hq, hloc⟩ := hlays'.reaches_iff.mp hreach
    exact hlays.reaches_iff.mpr ⟨(hleft.mp hq).1, hloc⟩
  case get =>
    refine (hlays'.get?_eq hM' other).trans ?_
    rw [hlays.get?_eq hM, Finmap.lookup_erase_ne hother]
  case order =>
    obtain ⟨hq, rfl⟩ := hlays'.reaches_iff.mp hreach
    have hqT := (hleft.mp hq).1
    refine ⟨_, _, hlays.children_kids hM hqT hterm, hlays'.children_kids hM' hq hterm,
      T.kids_prune _ q, fun l hl => Iff.trans ?_ hused.symm⟩
    rw [hlays.offsetOf_eq hqT (.inr (List.ne_nil_of_mem hl))]
    constructor
    · exact fun hl' => ⟨l :: q, ⟨hq, hl'⟩, rfl⟩
    · -- the slot is that of a node that is left, so of no other child
      rintro ⟨v, hv, hloc⟩
      obtain rfl := hlays.locate_inj (hleft.mp hv).1 (u := l :: q) ⟨hqT, hl⟩ hloc
      exact hv.2

theorem erase_of_find (h : t.find key = .noValue ∨ t.find key = .absent) : (t.erase key).1 = t :=
  congrArg (Trie.mk t.config) (Pool.erase_of_find h)

/-- **Erasing gives back what only the key needs, and moves nothing**, after any calls on a new trie.
For keys that are not stored, such as the empty one and those with a zero byte, it writes nothing. -/
theorem erases_run {o : Options} (ho : o.validate = .ok ()) (e : Encoding) (calls : List Call) :
    ∃ t, Trie.create e o = .ok t ∧
      (∀ key ∈ (Entries.run e ∅ calls).1,
        (t.run calls).1.Erases (Entries.run e ∅ calls).1 key ((t.run calls).1.erase key).1) ∧
      (∀ key, (t.run calls).1.find key = .noValue ∨ (t.run calls).1.find key = .absent →
        ((t.run calls).1.erase key).1 = (t.run calls).1 ∧
          ((t.run calls).1.erase key).1.image = (t.run calls).1.image) ∧
      ∀ key, key = [] ∨ 0 ∈ key →
        (t.run calls).1.find key = .noValue ∨ (t.run calls).1.find key = .absent := by
  obtain ⟨hholds, -, -⟩ := run_holds ho e calls
  refine ⟨_, (create_eq ho e).1, fun key hkey => hholds.erases hkey, fun key hfind => ?_,
    fun key hkey => ?_⟩
  · have hsame := erase_of_find hfind
    exact ⟨hsame, congrArg Trie.image hsame⟩
  · have hnot : key ∉ (Entries.run e ∅ calls).1 := fun hmem => by
      obtain ⟨hne, h0⟩ := hholds.key hmem
      exact hkey.elim hne h0
    rw [hholds.find, Entries.answer, Finmap.lookup_eq_none.mpr hnot]
    dsimp only
    split_ifs
    · exact .inl rfl
    · exact .inr rfl

/-- A key goes, with the nodes that do not lead to the other one. -/
theorem erases_run_reduced : Options.validate {} = .ok () ∧ ∃ t, Trie.create .reduced {} = .ok t ∧
    (t.run [.insert [97, 98] 1, .insert [97, 99] 2]).1.Erases
      (Entries.run .reduced ∅ [.insert [97, 98] 1, .insert [97, 99] 2]).1 [97, 98]
      ((t.run [.insert [97, 98] 1, .insert [97, 99] 2]).1.erase [97, 98]).1 := by
  obtain ⟨t, ht, herases, -⟩ := erases_run (o := {}) rfl .reduced
    [.insert [97, 98] 1, .insert [97, 99] 2]
  refine ⟨rfl, t, ht, herases [97, 98] ?_⟩
  have h₁ : refusal .reduced [97, 98] 1 = none := by decide
  have h₂ : refusal .reduced [97, 99] 2 = none := by decide
  simp only [Entries.run, Entries.perform, h₁, h₂, Finmap.mem_insert]
  exact .inr (.inl trivial)

end Trie

end DoubleArrayTrie
