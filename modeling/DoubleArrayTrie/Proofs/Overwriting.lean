import DoubleArrayTrie.Proofs.Structure
import DoubleArrayTrie.Proofs.Image.Rewriting

/-!
# Another value for a stored key

A value that is stored for a key which has one already goes through the same steps as a new key, but
none of them finds anything to make: the way down is the one that a query takes, and it ends at the
slot of the old value. So all that is written is the word of that slot, four bytes of the image.

* `Pool.store_of_walk`: what is written, in any pool whatever.
* `Trie.image_setBase`: a word of a slot is four bytes of the image.
* `Holds.store_comm`: values for two stored keys are written in either order.
* `Trie.overwrites_run`: what this comes to after any calls on a new trie.
-/

namespace DoubleArrayTrie

/-! ### Words that are written -/

namespace Pool

variable {c : Config} {p : Pool} {key : Key} {n : Nat} {w : Int32}

/-- **A value that takes the place of another** is one word, in the slot of the old value. -/
theorem store_of_walk (value : Int32) (h : p.walk c 0 key = some n)
    (hvalue : p.valueAt c n = .found w) :
    p.store c key value = (p.setBase (p.valueSlot c n) value.toInt, some w) := by
  unfold store valueSlot
  dsimp only
  rw [ensurePath_of_walk h]
  dsimp only
  rw [hvalue]
  by_cases hholds : c.encoding.holdsValue (p.slot n).base = true
  · rw [if_pos hholds, if_pos hholds]
    rfl
  · unfold valueAt at hvalue
    dsimp only at hvalue
    rw [if_neg hholds] at hvalue
    split at hvalue
    · simp at hvalue
    · next k hk =>
      split_ifs at hvalue with hcheck
      have hxor : k ^^^ (0 : UInt8).toNat = k := Nat.xor_zero k
      have hcheck' : (p.slot (k ^^^ (0 : UInt8).toNat)).check = n := by rw [hxor, hcheck]
      have hoffset : p.offsetOf c n = k := by
        unfold Encoding.offset? at hk
        split_ifs at hk
        exact Option.some.inj hk
      rw [if_neg hholds, if_neg hholds, ensureChild_of_check hk hcheck', hxor, hoffset]
      rfl

/-- Of two words in one slot the last one stays. -/
theorem setBase_setBase (p : Pool) (i : Nat) (raw raw' : Int) :
    (p.setBase i raw).setBase i raw' = p.setBase i raw' := by
  refine congrArg (fun slots => { p with slots }) (Array.toList_inj.mp ?_)
  unfold setBase modifySlot
  simp only [Array.toList_modify, List.modify_modify_eq]
  rfl

/-- Words in two slots are written in either order. -/
theorem setBase_comm (p : Pool) {i j : Nat} (hij : i ≠ j) (raw raw' : Int) :
    (p.setBase i raw).setBase j raw' = (p.setBase j raw').setBase i raw := by
  refine congrArg (fun slots => { p with slots }) (Array.toList_inj.mp ?_)
  unfold setBase modifySlot
  simp only [Array.toList_modify]
  exact List.modify_modify_ne _ _ _ hij

end Pool

/-! ### The bytes of a word -/

/-- **A word of a slot is four bytes of the image**, and all others stay. -/
theorem Trie.image_setBase (c : Config) {p : Pool} {i : Nat} (hi : i < p.capacity) (raw : Int) :
    Trie.image ⟨c, p.setBase i raw⟩ =
      Image.overwrite (Header.byteSize + i * Part.nodes.recordSize) (Integer.encode 4 raw)
        (Trie.image ⟨c, p⟩) := by
  have hheader : Header.ofTrie ⟨c, p.setBase i raw⟩ = Header.ofTrie ⟨c, p⟩ := by
    simp [Header.ofTrie, Header.extent, Pool.byteSize, Pool.recordCount, Pool.setBase,
      Pool.modifySlot, Pool.capacity]
  have hslots : (p.setBase i raw).slots = p.slots.modify i fun s => { s with base := raw } := rfl
  have hblocks : (p.setBase i raw).blocks = p.blocks := rfl
  have hrejects : (p.setBase i raw).rejects = p.rejects := rfl
  unfold Trie.image Image.partsBytes
  rw [hheader]
  dsimp only
  have hnodes : Image.nodeBytes (p.slots.modify i fun s => { s with base := raw }) =
      Image.overwrite (i * Part.nodes.recordSize) (Integer.encode 4 raw) (Image.nodeBytes p.slots) :=
    Image.nodeBytes_modify (n := 0) hi (by simp) fun _ => (Image.overwrite_front (by simp) _).symm
  have hlinks : Image.linkBytes (p.slots.modify i fun s => { s with base := raw }) =
      Image.linkBytes p.slots := Image.linkBytes_modify_same (by simp [Slot.labels]) ..
  rw [hslots, hblocks, hrejects, hnodes, hlinks]
  simp only [List.append_assoc]
  rw [← Header.length_encode (Header.ofTrie ⟨c, p⟩)]
  refine (Image.overwrite_append ?_ _ _).symm
  rw [Image.length_nodeBytes, Integer.length_encode]
  unfold Pool.capacity at hi
  simp only [Part.recordSize]
  omega

/-! ### Stored keys -/

namespace Pool.Lays

variable {c : Config} {p : Pool} {T : Outline} {off : Trail → Nat} {M : Entries} {key : Key}

/-- **A value for a stored key takes the place of the one before it**, and nothing else changes. -/
theorem overwrite {value : Int32} (h : p.Lays c T off)
    (hM : T.Holds c [] fun q => M.lookup q.reverse) (hkey : key ∈ M)
    (hrefusal : refusal c.encoding key value = none) :
    p.store c key value =
        (p.setBase (locate off (T.valueTrail key.reverse)) value.toInt, M.lookup key) ∧
      (p.setBase (locate off (T.valueTrail key.reverse)) value.toInt).Lays c
        (T.setWord (T.valueTrail key.reverse) value.toInt) off ∧
      (T.setWord (T.valueTrail key.reverse) value.toInt).Holds c []
        fun q => (M.insert key value).lookup q.reverse := by
  obtain ⟨hkey0, -, hv⟩ := refusal_eq_none hrefusal
  obtain ⟨old, hold⟩ := Finmap.mem_iff.mp hkey
  obtain ⟨h0, hmem, hvalue⟩ := hM.stored hold
  have hfound : p.valueAt c (locate off key.reverse) = .found old := by
    rw [h.valueAt_eq hmem (Outline.ne_terminal h0), hvalue]
    exact congrArg Lookup.found (Int32.ofInt_toInt old)
  refine ⟨?_, ?_, ?_⟩
  · have hwalk := h.walk_root.mpr ⟨by rwa [List.mem_reverse] at h0, hmem, rfl⟩
    rw [store_of_walk value hwalk hfound, h.valueSlot_eq hmem hvalue, hold]
  · have hmem' := Outline.mem_valueTrail hmem
    have hword := Outline.holdsValue_valueTrail hvalue
    obtain ⟨hne, hleaf⟩ := h.sound.leaf_valueTrail hvalue
    obtain ⟨l, u, hlu⟩ := List.exists_cons_of_ne_nil hne
    rw [hlu] at hmem' hleaf hword ⊢
    exact h.setWord hmem' hleaf fun hl => Encoding.offset?_of_holdsValue
      (Encoding.holdsValue_of_accepts (hword fun r hr => hl (List.cons.inj hr).1) hv).1
  · rw [← Outline.setValue_of_value? hvalue, lookup_insert_reverse]
    exact (hM.upTo List.nil_suffix hmem h0).setValue h.sound hmem (by simpa) h0 hv

theorem insert_eq {value : Int32} (h : p.Lays c T off)
    (hM : T.Holds c [] fun q => M.lookup q.reverse) (hkey : key ∈ M)
    (hrefusal : refusal c.encoding key value = none) :
    Trie.insert ⟨c, p⟩ key value =
      .ok (⟨c, p.setBase (locate off (T.valueTrail key.reverse)) value.toInt⟩, M.lookup key) := by
  rw [Trie.insert_eq]
  dsimp only
  rw [hrefusal, (h.overwrite hM hkey hrefusal).1]

/-- The slot of the value of a stored key is its leaf or its terminal. -/
theorem reaches_valueTrail (h : p.Lays c T off) (hM : T.Holds c [] fun q => M.lookup q.reverse)
    (hkey : key ∈ M) :
    p.Reaches c (locate off (T.valueTrail key.reverse)) key.reverse ∧
        p.Children c (locate off (T.valueTrail key.reverse)) [] ∨
      p.Reaches c (locate off (T.valueTrail key.reverse)) (0 :: key.reverse) := by
  obtain ⟨old, hold⟩ := Finmap.mem_iff.mp hkey
  obtain ⟨h0, hmem, hvalue⟩ := hM.stored hold
  by_cases hkid : 0 ∈ T.kids key.reverse
  · rw [Outline.valueTrail, if_pos hkid]
    exact .inr (h.reaches_iff.mpr ⟨⟨hmem, hkid⟩, rfl⟩)
  · have hleaf := (h.sound.leaf_valueTrail hvalue).2
    rw [Outline.valueTrail, if_neg hkid] at hleaf ⊢
    have hterm : key.reverse.head? ≠ some 0 := fun hhead => h0 (List.mem_of_head? hhead)
    exact .inl ⟨h.reaches_iff.mpr ⟨hmem, rfl⟩, hleaf ▸ h.children_kids hM hmem hterm⟩

end Pool.Lays

namespace Trie

/-- **A value takes the place of another one**, in four bytes of the image: the word of the leaf of
its key, or of its terminal. -/
structure Overwrites (t : Trie) (key : Key) (value : Int32) (e : Nat) (u : Trie) : Prop where
  leaf : t.pool.Reaches t.config e key.reverse ∧ t.pool.Children t.config e [] ∨
    t.pool.Reaches t.config e (0 :: key.reverse)
  lt_capacity : e < t.pool.capacity
  eq : u = ⟨t.config, t.pool.setBase e value.toInt⟩
  image : u.image = Image.overwrite (Header.byteSize + e * Part.nodes.recordSize)
    (Integer.encode 4 value.toInt) t.image

variable {t : Trie} {M : Entries} {key other : Key} {value value' : Int32}

/-- **Another value for a stored key** is one word. The same value once more changes nothing, and
values for two keys are written in either order. -/
theorem Holds.overwrite (h : t.Holds M) (hkey : key ∈ M)
    (hrefusal : refusal t.config.encoding key value = none) :
    ∃ e u, t.insert key value = .ok (u, M.lookup key) ∧ t.Overwrites key value e u ∧
      u.insert key value = .ok (u, some value) ∧
      ∀ other ∈ M, other ≠ key → ∀ value', refusal t.config.encoding other value' = none →
        ∃ u' r, t.insert other value' = .ok (u', M.lookup other) ∧
          u.insert other value' = .ok (r, M.lookup other) ∧
          u'.insert key value = .ok (r, M.lookup key) := by
  obtain ⟨c, p⟩ := t
  obtain ⟨T, off, hlays, hholds⟩ := h
  obtain ⟨-, hlays', hholds'⟩ := hlays.overwrite hholds hkey hrefusal
  obtain ⟨old, hold⟩ := Finmap.mem_iff.mp hkey
  obtain ⟨h0, hmem, -⟩ := hholds.stored hold
  have hlt : locate off (T.valueTrail key.reverse) < p.capacity :=
    (hlays.draws.lt_size (Outline.mem_valueTrail hmem)).trans_le hlays.draws.kept.size_le
  refine ⟨_, _, hlays.insert_eq hholds hkey hrefusal,
    ⟨hlays.reaches_valueTrail hholds hkey, hlt, rfl, image_setBase c hlt _⟩, ?_, ?_⟩
  · rw [hlays'.insert_eq hholds' (Finmap.mem_insert.mpr (.inl rfl)) hrefusal, Finmap.lookup_insert]
    exact congrArg (fun p => Except.ok (Trie.mk c p, some value)) (Pool.setBase_setBase ..)
  · intro other hother hne value' hrefusal'
    obtain ⟨-, hlays'', hholds''⟩ := hlays.overwrite hholds hother hrefusal'
    obtain ⟨old', hold'⟩ := Finmap.mem_iff.mp hother
    obtain ⟨h0', hmem', -⟩ := hholds.stored hold'
    have hapart : locate off (T.valueTrail key.reverse) ≠ locate off (T.valueTrail other.reverse) := by
      intro hloc
      have htrail := hlays.locate_inj (Outline.mem_valueTrail hmem) (Outline.mem_valueTrail hmem') hloc
      exact hne (List.reverse_injective (Outline.valueTrail_inj h0 h0' htrail)).symm
    have hfirst := hlays'.insert_eq hholds' (Finmap.mem_insert.mpr (.inr hother)) hrefusal'
    have hsecond := hlays''.insert_eq hholds'' (Finmap.mem_insert.mpr (.inr hkey)) hrefusal
    rw [Finmap.lookup_insert_of_ne _ hne] at hfirst
    rw [Finmap.lookup_insert_of_ne _ hne.symm] at hsecond
    refine ⟨_, _, hlays.insert_eq hholds hother hrefusal', hfirst, hsecond.trans ?_⟩
    exact congrArg (fun p => Except.ok (Trie.mk c p, M.lookup key))
      (Pool.setBase_comm p hapart ..).symm

/-- **A value for a stored key is written over the one before it**, after any calls on a new trie:
the value before is returned, and but for the four bytes of one word the image stays. Nothing is
left of the value in between when another is written, and two keys do not mind their order. -/
theorem overwrites_run {o : Options} (ho : o.validate = .ok ()) (e : Encoding) (calls : List Call) :
    ∃ t, Trie.create e o = .ok t ∧ ∀ key ∈ (Entries.run e ∅ calls).1, ∀ value,
      refusal e key value = none → ∃ n u,
        (t.run calls).1.insert key value = .ok (u, (Entries.run e ∅ calls).1.lookup key) ∧
        (t.run calls).1.Overwrites key value n u ∧
        u.insert key value = .ok (u, some value) ∧
        ∀ other ∈ (Entries.run e ∅ calls).1, other ≠ key → ∀ value',
          refusal e other value' = none → ∃ u' r,
            (t.run calls).1.insert other value' =
              .ok (u', (Entries.run e ∅ calls).1.lookup other) ∧
            u.insert other value' = .ok (r, (Entries.run e ∅ calls).1.lookup other) ∧
            u'.insert key value = .ok (r, (Entries.run e ∅ calls).1.lookup key) := by
  obtain ⟨hholds, hconfig, -⟩ := run_holds ho e calls
  refine ⟨_, (create_eq ho e).1, fun key hkey value hrefusal => ?_⟩
  have hover := @Holds.overwrite _ _ key value hholds hkey
  rw [hconfig] at hover
  exact hover hrefusal

/-- The value of a node that an erased key has left with nothing but its terminal, and that of a
leaf. -/
theorem overwrites_run_reduced : Options.validate {} = .ok () ∧ ∃ t, Trie.create .reduced {} = .ok t ∧
    ∃ n s u r u', (t.run [.insert [97] 1, .insert [97, 98] 2, .insert [98] 3, .erase [97, 98]]).1 = s ∧
      s.insert [97] 7 = .ok (u, some 1) ∧ s.Overwrites [97] 7 n u ∧
      s.insert [98] 8 = .ok (u', some 3) ∧
      u.insert [98] 8 = .ok (r, some 3) ∧ u'.insert [97] 7 = .ok (r, some 1) := by
  obtain ⟨t, ht, hover⟩ := overwrites_run (o := {}) rfl .reduced
    [.insert [97] 1, .insert [97, 98] 2, .insert [98] 3, .erase [97, 98]]
  have hrun : (Entries.run .reduced ∅
      [.insert [97] 1, .insert [97, 98] 2, .insert [98] 3, .erase [97, 98]]).1 =
        (((∅ : Entries).insert [97] 1).insert [97, 98] 2 |>.insert [98] 3).erase [97, 98] := by
    have h₁ : refusal .reduced [97] 1 = none := by decide
    have h₂ : refusal .reduced [97, 98] 2 = none := by decide
    have h₃ : refusal .reduced [98] 3 = none := by decide
    simp only [Entries.run, Entries.perform, h₁, h₂, h₃]
  rw [hrun] at hover
  have ha : ((((∅ : Entries).insert [97] 1).insert [97, 98] 2 |>.insert [98] 3).erase
      [97, 98]).lookup [97] = some 1 := by
    rw [Finmap.lookup_erase_ne (by decide), Finmap.lookup_insert_of_ne _ (by decide),
      Finmap.lookup_insert_of_ne _ (by decide), Finmap.lookup_insert]
  have hb : ((((∅ : Entries).insert [97] 1).insert [97, 98] 2 |>.insert [98] 3).erase
      [97, 98]).lookup [98] = some 3 := by
    rw [Finmap.lookup_erase_ne (by decide), Finmap.lookup_insert]
  obtain ⟨n, u, hinsert, hword, -, hcomm⟩ := hover [97] (Finmap.mem_iff.mpr ⟨_, ha⟩) 7 (by decide)
  obtain ⟨u', r, hother, hfirst, hsecond⟩ :=
    hcomm [98] (Finmap.mem_iff.mpr ⟨_, hb⟩) (by decide) 8 (by decide)
  rw [ha] at hinsert hsecond
  rw [hb] at hother hfirst
  exact ⟨rfl, t, ht, n, _, u, r, u', rfl, hinsert, hword, hother, hfirst, hsecond⟩

end Trie

end DoubleArrayTrie
