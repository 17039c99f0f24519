import DoubleArrayTrie.Proofs.Calls
import DoubleArrayTrie.Proofs.Trie.Extent
import DoubleArrayTrie.Proofs.Trie.Storing
import DoubleArrayTrie.Proofs.Trie.Erasing

/-!
# A trie is a finite map

The pool of a trie lays out an outline, and the outline holds entries. Every call keeps both, whatever
it relocates on its way, and does to the entries what the call on a finite map does.

* `Trie.Holds`: the trie holds these entries.
* `Holds.find`: what is found for a key.
* `Holds.perform`: what a call does.
* `Trie.run_refines`: what any sequence of calls does to a new trie.
-/

namespace DoubleArrayTrie

/-! ### A new trie -/

namespace Outline

/-- The outline of a trie without keys. -/
def empty : Outline := ⟨fun _ => [], fun _ => 0⟩

theorem mem_empty {t : Trail} : empty.Mem t ↔ t = [] := by
  rcases t with _ | ⟨l, q⟩
  · simp [Mem]
  · simp [Mem, empty]

theorem sound_empty (c : Config) : empty.Sound c where
  labels _ := ⟨List.nodup_nil, by simp [empty]⟩
  root := by simp [empty]
  terminal _ := rfl
  outside _ _ := rfl
  ordered _ _ := List.Pairwise.nil
  leaf l q _ hmem := absurd (mem_empty.mp hmem) (by simp)

theorem holds_empty (c : Config) : empty.Holds c [] fun _ => none where
  value t ht _ := by
    rw [mem_empty.mp ht, value?, if_neg (by simp [empty]), leafValue?_of_root]
    rfl
  mem t _ := by simp [mem_empty]
  key _ h := absurd rfl h
  accepts _ _ h := by simp at h

end Outline

namespace Pool

theorem lays_empty {c : Config} (hc : c.fault? = none) :
    (Pool.empty c.encoding.rootBase).Lays c .empty fun _ => 0 where
  sound := Outline.sound_empty c
  draws := by
    have hlive := live_empty c.encoding.rootBase
    rw [Encoding.rootBase_eq] at hlive ⊢
    refine ⟨.empty hc _, fun t ht => ?_, fun t u ht hu _ => ?_, fun e s he => ?_⟩
    · rw [Outline.mem_empty.mp ht, hlive]
      exact Function.update_self ..
    · rw [Outline.mem_empty.mp ht, Outline.mem_empty.mp hu]
    · rw [hlive, Function.update_apply] at he
      split_ifs at he with he0
      exact ⟨[], trivial, he0.symm⟩
  root := rfl
  deep _ _ hk := absurd rfl hk

end Pool

/-! ### Entries -/

theorem lookup_insert_reverse (M : Entries) (key : Key) (value : Int32) :
    (fun q : Trail => (M.insert key value).lookup q.reverse) =
      Function.update (fun q => M.lookup q.reverse) key.reverse (some value) := by
  funext q
  by_cases hq : q = key.reverse
  · rw [hq, Function.update_self, List.reverse_reverse, Finmap.lookup_insert]
  · have hne : q.reverse ≠ key := fun heq => hq (by rw [← heq, List.reverse_reverse])
    rw [Function.update_of_ne hq, Finmap.lookup_insert_of_ne _ hne]

theorem lookup_erase_reverse (M : Entries) (key : Key) :
    (fun q : Trail => (M.erase key).lookup q.reverse) =
      Function.update (fun q => M.lookup q.reverse) key.reverse none := by
  funext q
  by_cases hq : q = key.reverse
  · rw [hq, Function.update_self, List.reverse_reverse, Finmap.lookup_erase]
  · have hne : q.reverse ≠ key := fun heq => hq (by rw [← heq, List.reverse_reverse])
    rw [Function.update_of_ne hq, Finmap.lookup_erase_ne hne]

theorem mem_iff_begins (M : Entries) (q : Trail) (key : Key) :
    (key.reverse <:+ q ∨ ∃ u : Trail, key.reverse <:+ u ∧ M.lookup u.reverse ≠ none) ↔
      key <+: q.reverse ∨ ∃ longer ∈ M, key <+: longer := by
  have hq : key.reverse <:+ q ↔ key <+: q.reverse := by
    rw [← List.reverse_suffix, List.reverse_reverse]
  refine or_congr hq ⟨?_, ?_⟩
  · rintro ⟨u, hu, hM⟩
    refine ⟨u.reverse, not_not.mp (mt Finmap.lookup_eq_none.mpr hM), ?_⟩
    rwa [← List.reverse_suffix, List.reverse_reverse]
  · rintro ⟨longer, hM, hkey⟩
    refine ⟨longer.reverse, List.reverse_suffix.mpr hkey, ?_⟩
    rw [List.reverse_reverse]
    exact mt Finmap.lookup_eq_none.mp (not_not.mpr hM)

/-- A stored key has a node, and its value is that of the node. -/
theorem Outline.Holds.stored {c : Config} {T : Outline} {M : Entries} {key : Key} {value : Int32}
    (h : T.Holds c [] fun q => M.lookup q.reverse) (hkey : M.lookup key = some value) :
    0 ∉ key.reverse ∧ T.Mem key.reverse ∧ T.value? c key.reverse = some value.toInt := by
  have hlookup : M.lookup key.reverse.reverse = some value := by rw [List.reverse_reverse, hkey]
  have hsome : M.lookup key.reverse.reverse ≠ none := by rw [hlookup]; simp
  have h0 := (h.key _ hsome).2
  have hmem := (h.mem _ h0).mpr (.inr ⟨_, List.suffix_rfl, hsome⟩)
  refine ⟨h0, hmem, ?_⟩
  rw [h.value _ hmem h0, hlookup]
  rfl

theorem Entries.answer_nil_ne_absent (M : Entries) : M.answer [] ≠ .absent := by
  unfold Entries.answer
  split
  · simp
  · rw [if_pos (.inl rfl)]
    simp

/-- **What is found for a key** is what the entries say, but for the bytes on the way to a node that has
no use yet. -/
theorem Pool.Lays.find_eq {c : Config} {p : Pool} {T : Outline} {off : Trail → Nat} {q : Trail}
    {M : Entries} (hlays : p.Lays c T off) (hholds : T.Holds c q fun q => M.lookup q.reverse)
    (h0 : 0 ∉ q) (key : Key) : p.find c key =
      if M.answer key = .absent ∧ key <+: q.reverse then .noValue else M.answer key := by
  have h0' : 0 ∉ key.reverse ↔ 0 ∉ key := by rw [List.mem_reverse]
  unfold Entries.answer
  by_cases hmem : 0 ∉ key ∧ T.Mem key.reverse
  · have hvalue := hholds.value key.reverse hmem.2 (h0'.mpr hmem.1)
    have hprefix := (mem_iff_begins M q key).mp ((hholds.mem _ (h0'.mpr hmem.1)).mp hmem.2)
    rw [List.reverse_reverse] at hvalue
    rw [hlays.find_of_mem hmem.1 hmem.2, hvalue]
    cases M.lookup key with
    | some value =>
      rw [if_neg (by simp)]
      exact congrArg Lookup.found (Int32.ofInt_toInt value)
    | none =>
      dsimp only
      by_cases hlonger : key = [] ∨ ∃ longer ∈ M, key <+: longer
      · rw [if_pos hlonger, if_neg (by simp)]
        rfl
      · rw [if_neg hlonger, if_pos ⟨rfl, hprefix.resolve_right fun h => hlonger (.inr h)⟩]
        rfl
  · -- a key that is no node has no value, and neither has one that goes on from it
    have hnot : ¬ (key <+: q.reverse ∨ ∃ longer ∈ M, key <+: longer) := by
      intro hp
      have hk0 : 0 ∉ key := by
        rcases hp with hq | ⟨longer, hM, hkey⟩
        · exact fun hk => h0 (List.mem_reverse.mp (hq.subset hk))
        · have hlookup : M.lookup longer.reverse.reverse ≠ none := by
            rw [List.reverse_reverse]
            exact mt Finmap.lookup_eq_none.mp (not_not.mpr hM)
          exact fun hk => (hholds.key _ hlookup).2 (List.mem_reverse.mpr (hkey.subset hk))
      exact hmem ⟨hk0, (hholds.mem _ (h0'.mpr hk0)).mpr ((mem_iff_begins M q key).mpr hp)⟩
    rw [not_or] at hnot
    have hnone : M.lookup key = none := Finmap.lookup_eq_none.mpr fun hM =>
      hnot.2 ⟨key, hM, List.prefix_refl key⟩
    have hshort : ¬ (key = [] ∨ ∃ longer ∈ M, key <+: longer) := by
      rintro (rfl | hlonger)
      · exact hnot.1 List.nil_prefix
      · exact hnot.2 hlonger
    rw [hlays.find_of_not hmem, hnone]
    dsimp only
    rw [if_neg hshort, if_neg fun h => hnot.1 h.2]

namespace Trie

variable {t : Trie} {M : Entries}

/-- The trie holds these entries, and its pool is in order. -/
def Holds (t : Trie) (M : Entries) : Prop :=
  ∃ T off, t.pool.Lays t.config T off ∧ T.Holds t.config [] fun q => M.lookup q.reverse

/-- The trie holds these entries, and its pool lays out this outline. -/
def Shows (t : Trie) (T : Outline) (M : Entries) : Prop :=
  ∃ off, t.pool.Lays t.config T off ∧ T.Holds t.config [] fun q => M.lookup q.reverse

theorem shows_empty {c : Config} (hc : c.fault? = none) : (Trie.empty c).Shows .empty ∅ := by
  unfold Shows Trie.empty
  dsimp only
  refine ⟨_, Pool.lays_empty hc, ?_⟩
  simp only [Finmap.lookup_empty]
  exact Outline.holds_empty c

theorem holds_empty {c : Config} (hc : c.fault? = none) : (Trie.empty c).Holds ∅ :=
  ⟨.empty, shows_empty hc⟩

namespace Holds

theorem kept (h : t.Holds M) : t.pool.WellKept t.config := by
  obtain ⟨T, off, hlays, -⟩ := h
  exact hlays.draws.kept

theorem capacity_pos (h : t.Holds M) : 0 < t.pool.capacity :=
  Nat.lt_of_lt_of_le (by decide) (h.kept.size_pos.trans h.kept.size_le)

theorem key {key : Key} (h : t.Holds M) (hM : key ∈ M) : key ≠ [] ∧ 0 ∉ key := by
  obtain ⟨T, off, -, hholds⟩ := h
  have hkey := hholds.key key.reverse (by
    rw [List.reverse_reverse]
    exact mt Finmap.lookup_eq_none.mp (not_not.mpr hM))
  simpa using hkey

/-- **What is found for a key** is what the entries say. -/
theorem find (h : t.Holds M) (key : Key) : t.find key = M.answer key := by
  obtain ⟨T, off, hlays, hholds⟩ := h
  refine (hlays.find_eq hholds (by simp) key).trans (if_neg ?_)
  rintro ⟨habsent, hkey⟩
  rw [List.prefix_nil.mp hkey] at habsent
  exact M.answer_nil_ne_absent habsent

theorem value?_ofValue (o : Option Int32) : (Lookup.ofValue (o.map Int32.toInt)).value? = o := by
  cases o with
  | none => rfl
  | some value => exact congrArg some (Int32.ofInt_toInt value)

end Holds

namespace Shows

variable {T : Outline}

theorem holds (h : t.Shows T M) : t.Holds M := ⟨T, h⟩

/-- An entry that is not refused is stored in the outline, and the value that it replaces is
returned. -/
theorem store {key : Key} {value : Int32} (h : t.Shows T M)
    (hrefusal : refusal t.config.encoding key value = none) :
    Trie.Shows ⟨t.config, (t.pool.store t.config key value).1⟩ (T.store t.config key value.toInt)
        (M.insert key value) ∧
      (t.pool.store t.config key value).2 = M.lookup key := by
  obtain ⟨off, hlays, hholds⟩ := h
  obtain ⟨hkey, h0, hv⟩ := refusal_eq_none hrefusal
  obtain ⟨off', hstore, hprevious⟩ := hlays.store hkey h0 hv
  refine ⟨⟨off', hstore, ?_⟩, ?_⟩
  · rw [lookup_insert_reverse]
    exact hholds.store hlays.sound hkey h0 hv
  · have hpath := hholds.extend hlays.sound (q := []) trivial (by simp) h0
    obtain ⟨-, hmem⟩ := hlays.sound.extend (q := []) trivial (by simp) h0
    rw [List.append_nil] at hpath hmem
    rw [hprevious, hpath.value _ hmem (by rwa [List.mem_reverse]), Holds.value?_ofValue,
      List.reverse_reverse]

/-- A key is erased from the outline, if there is a value for it, and what was found for it is
returned. -/
theorem erase (h : t.Shows T M) (key : Key) :
    (t.erase key).1.Shows (if key ∈ M then T.erase t.config key.reverse else T) (M.erase key) ∧
      (t.erase key).2 = M.answer key := by
  have hfind := h.holds.find key
  have hkey : key ∈ M → key ≠ [] ∧ 0 ∉ key := h.holds.key
  obtain ⟨off, hlays, hholds⟩ := h
  have hsame : M.lookup key = none → M.erase key = M := by
    intro hnone
    refine Finmap.ext_lookup fun k => ?_
    by_cases hk : k = key
    · rw [hk, Finmap.lookup_erase, hnone]
    · exact Finmap.lookup_erase_ne hk
  rw [← hfind]
  unfold Trie.find Trie.erase
  dsimp only
  by_cases hmem : 0 ∉ key ∧ T.Mem key.reverse
  · have h0 : 0 ∉ key.reverse := by rw [List.mem_reverse]; exact hmem.1
    have hvalue := hholds.value key.reverse hmem.2 h0
    rw [List.reverse_reverse] at hvalue
    cases hM : M.lookup key with
    | none =>
      rw [hM] at hvalue
      rw [hlays.erase_of_noValue hmem.1 hmem.2 hvalue, hlays.find_of_mem hmem.1 hmem.2, hvalue,
        hsame hM, if_neg (Finmap.lookup_eq_none.mp hM)]
      exact ⟨⟨off, hlays, hholds⟩, rfl⟩
    | some value =>
      rw [hM] at hvalue
      obtain ⟨herase, hanswer⟩ := hlays.erase hmem.1 hmem.2 hvalue
      rw [hanswer, hlays.find_of_mem hmem.1 hmem.2, hvalue, if_pos (Finmap.mem_iff.mpr ⟨_, hM⟩)]
      refine ⟨⟨off, herase, ?_⟩, rfl⟩
      rw [lookup_erase_reverse]
      exact hholds.erase hlays.sound hmem.2 h0 (by rw [List.reverse_reverse, hM]; simp)
  · have hnot : key ∉ M := fun hM => by
      refine hmem ⟨(hkey hM).2, (hholds.mem _ (by rw [List.mem_reverse]; exact (hkey hM).2)).mpr ?_⟩
      exact (mem_iff_begins M [] key).mpr (.inr ⟨key, hM, List.prefix_refl key⟩)
    rw [hlays.erase_of_not hmem, hlays.find_of_not hmem, hsame (Finmap.lookup_eq_none.mpr hnot),
      if_neg hnot]
    exact ⟨⟨off, hlays, hholds⟩, rfl⟩

end Shows

namespace Holds

/-- **An entry that is not refused is stored**, and the value that it replaces is returned. -/
theorem store {key : Key} {value : Int32} (h : t.Holds M)
    (hrefusal : refusal t.config.encoding key value = none) :
    Trie.Holds ⟨t.config, (t.pool.store t.config key value).1⟩ (M.insert key value) ∧
      (t.pool.store t.config key value).2 = M.lookup key := by
  obtain ⟨T, hT⟩ := h
  exact (Shows.store hT hrefusal).imp_left Shows.holds

/-- **A key is erased**, and what was found for it is returned. -/
theorem erase (h : t.Holds M) (key : Key) :
    (t.erase key).1.Holds (M.erase key) ∧ (t.erase key).2 = M.answer key := by
  obtain ⟨T, hT⟩ := h
  exact (Shows.erase hT key).imp_left Shows.holds

/-! ### Calls -/

/-- Several entries are stored, up to the first that is refused. -/
theorem insertAll (h : t.Holds M) (entries : List (Key × Int32)) :
    (t.insertAll entries).1.Holds (M.insertAll t.config.encoding entries).1 ∧
      (t.insertAll entries).1.config = t.config ∧
      (t.insertAll entries).2 = (M.insertAll t.config.encoding entries).2 := by
  induction entries generalizing t M with
  | nil => exact ⟨h, rfl, rfl⟩
  | cons entry entries ih =>
    obtain ⟨key, value⟩ := entry
    unfold Trie.insertAll Entries.insertAll
    rw [admit_eq]
    cases hrefusal : refusal t.config.encoding key value with
    | some err => exact ⟨h, rfl, rfl⟩
    | none => exact ih (h.store hrefusal).1

theorem insertKeys (h : t.Holds M) (keys : List Key) (position : Nat) :
    (t.insertKeys keys position).1.Holds (M.insertKeys t.config.encoding position keys).1 ∧
      (t.insertKeys keys position).1.config = t.config ∧
      (t.insertKeys keys position).2 = (M.insertKeys t.config.encoding position keys).2 := by
  induction keys generalizing t M position with
  | nil => exact ⟨h, rfl, rfl⟩
  | cons key keys ih =>
    unfold Trie.insertKeys Entries.insertKeys
    by_cases hposition : 2147483647 < position
    · rw [if_pos hposition, if_pos hposition]
      exact ⟨h, rfl, rfl⟩
    · rw [if_neg hposition, if_neg hposition, admit_eq]
      cases hrefusal : refusal t.config.encoding key (Int32.ofNat position) with
      | some err => exact ⟨h, rfl, rfl⟩
      | none => exact ih (h.store hrefusal).1 (position + 1)

/-- **A call does to the trie what it does to the entries**, and returns the same. -/
theorem perform (h : t.Holds M) (call : Call) :
    (t.perform call).1.Holds (M.perform t.config.encoding call).1 ∧
      (t.perform call).1.config = t.config ∧
      (t.perform call).2 = (M.perform t.config.encoding call).2 := by
  cases call with
  | insert key value =>
    unfold Trie.perform Entries.perform
    dsimp only
    rw [insert_eq]
    cases hrefusal : refusal t.config.encoding key value with
    | some err => exact ⟨h, rfl, rfl⟩
    | none =>
      obtain ⟨hholds, hprevious⟩ := h.store hrefusal
      exact ⟨hholds, rfl, congrArg (Answer.stored ∘ Except.ok) hprevious⟩
  | insertAll entries =>
    obtain ⟨hholds, hconfig, hresult⟩ := h.insertAll entries
    exact ⟨hholds, hconfig, congrArg Answer.built hresult⟩
  | insertKeys keys =>
    obtain ⟨hholds, hconfig, hresult⟩ := h.insertKeys keys 0
    exact ⟨hholds, hconfig, congrArg Answer.built hresult⟩
  | erase key =>
    obtain ⟨hholds, hresult⟩ := h.erase key
    exact ⟨hholds, rfl, congrArg Answer.erased hresult⟩

/-- So do several calls. -/
theorem run (h : t.Holds M) (calls : List Call) :
    (t.run calls).1.Holds (M.run t.config.encoding calls).1 ∧
      (t.run calls).1.config = t.config ∧
      (t.run calls).2 = (M.run t.config.encoding calls).2 := by
  induction calls generalizing t M with
  | nil => exact ⟨h, rfl, rfl⟩
  | cons call calls ih =>
    obtain ⟨hholds, hconfig, hanswer⟩ := h.perform call
    obtain ⟨hholds', hconfig', hanswers⟩ := ih hholds
    rw [hconfig] at hholds' hconfig' hanswers
    refine ⟨hholds', hconfig', ?_⟩
    unfold Trie.run Entries.run
    dsimp only
    rw [hanswer, hanswers]

end Holds

theorem create_eq {o : Options} (ho : o.validate = .ok ()) (e : Encoding) :
    Trie.create e o = .ok (Trie.empty { o with encoding := e }) ∧ o.fault? = none := by
  refine ⟨by unfold Trie.create; rw [ho], ?_⟩
  unfold Options.validate at ho
  cases hfault : o.fault? with
  | none => rfl
  | some fault => simp [hfault] at ho

/-- Only valid options make a trie. -/
theorem validate_of_create {o : Options} {e : Encoding} {t : Trie} (h : Trie.create e o = .ok t) :
    o.validate = .ok () ∧ t = Trie.empty { o with encoding := e } := by
  unfold Trie.create at h
  cases hvalidate : o.validate with
  | error err => simp [hvalidate] at h
  | ok =>
    rw [hvalidate] at h
    exact ⟨rfl, (Except.ok.inj h).symm⟩

/-- A new trie has one block. -/
theorem exists_create (e : Encoding) : ∃ t, Trie.create e = .ok t ∧ t.pool.capacity = 256 := by
  refine ⟨_, (create_eq (o := {}) rfl e).1, ?_⟩
  unfold Trie.empty
  rw [Pool.capacity_empty]
  rfl

/-- It still has one block with a key of one byte, if leaves hold values. -/
theorem capacity_run_singleton {c : Config} (hc : c.encoding = .reduced) (label : UInt8)
    (value : Int32) : ((Trie.empty c).run [.insert [label] value]).1.pool.capacity = blockSize := by
  cases hrefusal : refusal c.encoding [label] value with
  | some err =>
    simp only [run, perform, insert_eq, Trie.empty, hrefusal]
    exact Pool.capacity_empty _
  | none =>
    obtain ⟨-, h0, -⟩ := refusal_eq_none hrefusal
    simp only [run, perform, insert_eq, Trie.empty, hrefusal]
    exact Pool.capacity_store_singleton hc (fun h => h0 (List.mem_singleton.mpr h.symm)) value

/-- After any calls a new trie holds what the entries are after them. -/
theorem run_holds {o : Options} (ho : o.validate = .ok ()) (e : Encoding) (calls : List Call) :
    ((Trie.empty { o with encoding := e }).run calls).1.Holds (Entries.run e ∅ calls).1 ∧
      ((Trie.empty { o with encoding := e }).run calls).1.config = { o with encoding := e } ∧
      ((Trie.empty { o with encoding := e }).run calls).2 = (Entries.run e ∅ calls).2 :=
  (holds_empty (create_eq ho e).2).run calls

/-- **A trie is a finite map.** Whatever the encoding and the valid options, any calls on a new trie
return what they return on the entries, and every key is answered as the entries say. Keys of
entries are not empty and have no zero byte, and a trie that refuses an entry stays as it is. -/
theorem run_refines {o : Options} (ho : o.validate = .ok ()) (e : Encoding) (calls : List Call) :
    ∃ t, Trie.create e o = .ok t ∧
      (t.run calls).2 = (Entries.run e ∅ calls).2 ∧
      (∀ key, (t.run calls).1.find key = (Entries.run e ∅ calls).1.answer key) ∧
      (∀ key ∈ (Entries.run e ∅ calls).1, key ≠ [] ∧ 0 ∉ key) ∧
      ∀ key value err, refusal e key value = some err →
        (t.run calls).1.perform (.insert key value) = ((t.run calls).1, .stored (.error err)) := by
  obtain ⟨hholds, hconfig, hanswers⟩ := run_holds ho e calls
  refine ⟨_, (create_eq ho e).1, hanswers, hholds.find, fun _ => hholds.key, ?_⟩
  intro key value err hrefusal
  unfold Trie.perform
  dsimp only
  rw [insert_eq, hconfig, hrefusal]

/-- The entries `ab` and `a` are stored, and `ab` is erased. -/
theorem run_refines_reduced : Options.validate {} = .ok () ∧ ∃ t, Trie.create .reduced {} = .ok t ∧
    (t.run [.insert [97, 98] 1, .insert [97] 2, .erase [97, 98]]).1.find [97] = .found 2 := by
  refine ⟨rfl, ?_⟩
  obtain ⟨t, ht, -, hfind, -⟩ := run_refines (o := {}) rfl .reduced
    [.insert [97, 98] 1, .insert [97] 2, .erase [97, 98]]
  refine ⟨t, ht, (hfind [97]).trans ?_⟩
  have h1 : refusal .reduced [97, 98] 1 = none := by decide
  have h2 : refusal .reduced [97] 2 = none := by decide
  simp only [Entries.run, Entries.perform, h1, h2]
  unfold Entries.answer
  rw [Finmap.lookup_erase_ne (by decide), Finmap.lookup_insert]

end Trie

end DoubleArrayTrie
