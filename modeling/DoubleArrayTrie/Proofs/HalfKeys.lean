import DoubleArrayTrie.Proofs.Leaving
import DoubleArrayTrie.Proofs.Programs.Returning

/-!
# Half of a key

The slots that are left behind in the middle of storing a value may have a node that no key needs: a leaf
without a value, at the end of the first bytes of the new key. It is told from a key when keys are looked
up, but not when they are listed. There its word is taken for a value in the reduced encoding, and for
the offset of a terminal in the standard one, although it is negative.

* `Trie.ReadsAs`: what a trie with such a leaf is read as.
* `Pool.Lays.visits_half`: the way of a cursor through such a trie.
* `Trie.entries_half`, `Trie.faults_half`: the list of all keys in either encoding.
* `Torn.reads`: slots that were left behind are read so.
-/

namespace DoubleArrayTrie

/-- The pool with all its slots in range. -/
def Pool.whole (p : Pool) : Pool := { p with size := p.capacity }

/-- What is listed where the bytes `w` lead to a leaf without a value. -/
structure Trie.ListsHalf (r : Trie) (M : Entries) (w : Key) : Prop where
  /-- The word of the leaf is no offset, and all keys are listed by a program that takes it for one. -/
  standard : r.config.encoding = .standard →
    (∃ n, r.pool.walk r.config 0 w = some n ∧ (r.pool.slot n).base = -1) ∧
      (Program.entries .standard).run r.config r.pool.whole = none
  /-- The word of the leaf stands among the entries, as if it were the value of `w`. -/
  reduced : r.config.encoding = .reduced → ∃ es es',
    r.entries = .ok (es ++ (w, Int32.ofInt Encoding.unset) :: es') ∧ M.Lists (es ++ es')

/-- The trie is read as the entries `M`, but that the bytes `w` may lead to a node without a value. -/
structure Trie.ReadsAs (r : Trie) (M : Entries) (w : Key) : Prop where
  find : ∀ key, r.find key = if M.answer key = .absent ∧ key <+: w then .noValue else M.answer key
  lists : w = [] ∨ (∃ key ∈ M, w <+: key) → r.Lists M
  half : w ≠ [] → (∀ key ∈ M, ¬ w <+: key) → r.ListsHalf M w

variable {c : Config} {T : Outline} {off : Trail → Nat} {q : Trail}

/-- A cursor visits the same in a pool with the same slots. -/
theorem Pool.Visits.congr {p p' : Pool} {root : Nat} {k? k?' : Option Cursor} {ks : List Cursor}
    (h : Visits c p root k? ks k?') (hslots : p'.SameSlots p) : Visits c p' root k? ks k?' := by
  induction h with
  | refl k? => exact .refl k?
  | step _ ih =>
    rw [← hslots.nextKey?_eq] at ih
    exact .step ih

/-! ### The leaf -/

/-- A node that no key needs is a leaf without a value. -/
theorem Outline.Holds.leaf {M : Trail → Option Int32} (h : T.Holds c q M) (hq : T.Mem q) (h0 : 0 ∉ q)
    (hno : ∀ u, q <:+ u → M u = none) : T.kids q = [] ∧ T.value? c q = none := by
  have hvalue : T.value? c q = none := by
    rw [h.value q hq h0, hno q List.suffix_rfl]
    rfl
  refine ⟨?_, hvalue⟩
  rw [List.eq_nil_iff_forall_not_mem]
  intro l hl
  have hl0 : l ≠ 0 := by
    rintro rfl
    rw [Outline.value?, if_pos hl] at hvalue
    simp at hvalue
  have hlq : 0 ∉ l :: q := by
    rw [List.mem_cons, not_or]
    exact ⟨Ne.symm hl0, h0⟩
  rcases (h.mem (l :: q) hlq).mp ⟨hq, hl⟩ with hsuffix | ⟨u, hsuffix, hu⟩
  · simpa using hsuffix.length_le
  · exact hu (hno u ((List.suffix_cons l q).trans hsuffix))

namespace Pool.Lays

variable {p : Pool} {M : Trail → Option Int32} (h : p.Lays c T off) (hM : T.Holds c q M)
  (hfresh : T.Fresh c q) (hq : T.Mem q) (h0 : 0 ∉ q) (hq0 : q ≠ []) (hno : ∀ u, q <:+ u → M u = none)

include h hM hq h0 hno

/-- The leaf is not listed, but it takes a slot as well. -/
theorem length_listing_lt : (T.listing c p.size []).length < p.size := by
  have hnodup := Outline.nodup_listing h.sound (t := []) trivial (by simp) p.size
  show (q :: T.listing c p.size []).length ≤ p.size
  refine h.length_le_size (List.nodup_cons.mpr ⟨fun hlisted => ?_, hnodup⟩) fun u hu => ?_
  · have hvalue := (Outline.of_mem_listing (t := []) trivial (by simp) hlisted).2.2.2
    rw [(hM.leaf hq h0 hno).2] at hvalue
    simp at hvalue
  · rcases List.mem_cons.mp hu with rfl | hu
    · exact hq
    · exact (Outline.of_mem_listing (t := []) trivial (by simp) hu).2.1

include hq0

/-- **A cursor on its way through all keys** comes to the leaf, after some of the keys and before the
others. -/
theorem visits_half : ∃ us vs, T.listing c p.size [] = us ++ vs ∧ us.length + vs.length < p.size ∧
    Visits c p 0 (p.firstKey? c 0 0) (us.map (T.cursor c off []))
      (some ⟨locate off q, q.length,
        Int32.ofInt (p.slot (p.valueSlot c (locate off q))).base⟩) ∧
    Visits c p 0 (p.resume c 0 q.length 0 (locate off q)) (vs.map (T.cursor c off [])) none := by
  obtain ⟨hkids, hvalue⟩ := hM.leaf hq h0 hno
  have hfull : ∀ u, T.Mem u → 0 ∉ u → u ≠ [] → u ≠ q → T.kids u = [] →
      ∃ v, T.leafValue? c u = some v := by
    intro u hu hu0 _ huq hleaf
    by_cases hsuffix : u <:+ q
    · -- a node on the way down to the leaf is no leaf itself
      exact absurd (Outline.eq_of_leaf_suffix hleaf hq hsuffix).symm huq
    · exact (hM.exists_leafValue_of_not hu hu0 hleaf hsuffix).imp' Int32.toInt fun _ => id
  obtain ⟨us, vs, hlisting, hto, hfrom⟩ := h.visits_around hq h0 hkids hvalue hfull
    (List.suffix_rfl (l := [])) List.nil_suffix fun u hu =>
      (h.length_lt_size hu).trans_le (Nat.le_add_left ..)
  rw [h.firstKey?_end hq hq0 (by rw [hkids]; rfl)] at hto
  have hlength := h.length_listing_lt hM hq h0 hno
  rw [hlisting, List.length_append] at hlength
  exact ⟨us, vs, hlisting, hlength, hto, hfrom⟩

include hfresh

/-- The leaf has the word of a new node. -/
theorem base_half : ∃ l, l ≠ 0 ∧ (p.slot (locate off q)).base = c.encoding.fresh l := by
  obtain ⟨hkids, hvalue⟩ := hM.leaf hq h0 hno
  obtain ⟨l, u, rfl⟩ := List.exists_cons_of_ne_nil hq0
  refine ⟨l, fun hl => h0 (by rw [hl]; exact List.mem_cons_self), ?_⟩
  rw [h.base_of_leaf hq hkids]
  refine hfresh l u rfl hkids ?_
  rwa [Outline.value?, if_neg (by rw [hkids]; simp)] at hvalue

end Pool.Lays

/-! ### All keys -/

namespace Trie

variable {t : Trie} {M : Entries} (h : t.pool.Lays t.config T off)
  (hM : T.Holds t.config q fun q => M.lookup q.reverse)

include h hM

/-- The match at a node that is listed is spelled out as its entry. -/
theorem spelled_of_mem_listing {n : Nat} {u : Trail} (hu : u ∈ T.listing t.config n []) :
    ((t.suffixOf (matchAt (T.cursor t.config off [] u))).map fun key =>
      (key, (matchAt (T.cursor t.config off [] u)).value)) = .ok (M.entry u.reverse) := by
  obtain ⟨v, value, rfl, hmem, hlookup, hmatch⟩ :=
    match_of_mem_listing hM (s := []) trivial (by simp) off hu
  have hsuffix : t.suffixOf ⟨value, v.length, locate off (v ++ [])⟩ = .ok v.reverse :=
    h.suffix_eq hmem
  rw [List.reverse_nil, List.nil_append] at hlookup
  rw [hmatch, hsuffix, List.append_nil, Entries.entry, hlookup]
  rfl

theorem lists_listing :
    M.Lists ((T.listing t.config t.pool.size []).map fun u => M.entry u.reverse) := by
  have hlists := (completes_listing h (s := []) trivial (by simp) hM).lists
  rwa [List.map_map] at hlists

variable (hfresh : T.Fresh t.config q) (hq : T.Mem q)
  (h0 : 0 ∉ q) (hq0 : q ≠ []) (hno : ∀ u : Trail, q <:+ u → M.lookup u.reverse = none)

include hfresh hq h0 hq0 hno

/-- Where leaves hold values a cursor stops at the leaf as well. -/
theorem predict_half (hreduced : t.config.encoding = .reduced) : ∃ us vs,
    T.listing t.config t.pool.size [] = us ++ vs ∧
      t.predict [] = (us.map (T.cursor t.config off []) ++
        ⟨locate off q, q.length, Int32.ofInt Encoding.unset⟩ ::
          vs.map (T.cursor t.config off [])).map matchAt := by
  obtain ⟨us, vs, hlisting, hlength, hto, hfrom⟩ := h.visits_half hM hq h0 hq0 hno
  obtain ⟨l, -, hbase⟩ := h.base_half hM hfresh hq h0 hq0 hno
  have hunset : (t.pool.slot (locate off q)).base = Encoding.unset := by
    rw [hbase, hreduced]
    rfl
  have hholds : t.config.encoding.holdsValue (t.pool.slot (locate off q)).base = true := by
    rw [hunset, hreduced]
    rfl
  have hslot : t.pool.valueSlot t.config (locate off q) = locate off q := if_pos hholds
  have hnext : t.pool.resume t.config 0 q.length 0 (locate off q) =
      t.pool.nextKey? t.config 0 ⟨locate off q, q.length, Int32.ofInt Encoding.unset⟩ := by
    rw [Pool.nextKey?_eq, if_pos hholds]
  rw [hslot, hunset] at hto
  rw [hnext] at hfrom
  refine ⟨us, vs, hlisting, (yields_of_visits (hto.trans (.step hfrom)) rfl).drain_eq ?_⟩
  have hsize := h.draws.kept.size_le
  simp only [List.length_map, List.length_append, List.length_cons]
  omega

/-- **In the reduced encoding** the leaf is listed as if it had a value. -/
theorem entries_half (hreduced : t.config.encoding = .reduced) : ∃ es es',
    t.entries = .ok (es ++ (q.reverse, Int32.ofInt Encoding.unset) :: es') ∧
      M.Lists (es ++ es') := by
  obtain ⟨us, vs, hlisting, hpredict⟩ := predict_half h hM hfresh hq h0 hq0 hno hreduced
  have hlists := lists_listing h hM
  rw [hlisting, List.map_append] at hlists
  refine ⟨_, _, ?_, hlists⟩
  unfold Trie.entries
  rw [hpredict, List.map_append, List.map_cons, List.map_map, List.map_map]
  have hspelled : ∀ ws : List Trail, ws ⊆ us ++ vs → List.Forall₂
      (fun m e => ((t.suffixOf m).map fun key => (key, m.value)) = .ok e)
      (ws.map (matchAt ∘ T.cursor t.config off [])) (ws.map fun u => M.entry u.reverse) := by
    intro ws hws
    rw [List.forall₂_map_left_iff, List.forall₂_map_right_iff, List.forall₂_same]
    exact fun u hu => spelled_of_mem_listing h hM (hlisting ▸ hws hu)
  have hleaf : t.suffixOf ⟨Int32.ofInt Encoding.unset, q.length, locate off q⟩ = .ok q.reverse := by
    have hsuffix := h.suffix_eq (t := q) (u := []) (by rwa [List.append_nil])
    rwa [List.append_nil] at hsuffix
  refine mapM_eq_ok (List.rel_append (hspelled us (List.subset_append_left us vs))
    (.cons ?_ (hspelled vs (List.subset_append_right us vs))))
  unfold matchAt
  dsimp only
  rw [hleaf]
  rfl

/-- **In the standard encoding** the word of the leaf is no offset, and the keys are not listed. -/
theorem faults_half (hstandard : t.config.encoding = .standard) {r : Trie} (hr : r.SameSlots t) :
    (t.pool.slot (locate off q)).base = -1 ∧
      (Program.entries .standard).run r.config r.pool.whole = none := by
  obtain ⟨us, vs, -, hlength, hto, -⟩ := h.visits_half hM hq h0 hq0 hno
  obtain ⟨l, hl, hbase⟩ := h.base_half hM hfresh hq h0 hq0 hno
  rw [hstandard, Encoding.fresh, if_neg hl] at hbase
  refine ⟨hbase, ?_⟩
  obtain ⟨hconfig, hslots⟩ := hr
  have hwhole : r.pool.whole.SameSlots t.pool := hslots
  have hvisits := hto.congr hwhole
  rw [← hwhole.firstKey?_eq] at hvisits
  have hroom : (us.map (T.cursor t.config off [])).length ≤ r.pool.whole.size + 1 := by
    have hsize := h.draws.kept.size_le
    rw [List.length_map, show r.pool.whole.size = t.pool.capacity from hslots.capacity_eq]
    omega
  by_contra hrun
  have hreadable := Program.readable_of_entries rfl hvisits hroom
    (by rwa [hstandard, ← hconfig, Option.isSome_iff_ne_none])
  unfold Pool.Readable at hreadable
  rw [hstandard, hwhole.slot_eq, hbase] at hreadable
  simp [Encoding.holdsValue, Encoding.offset] at hreadable

end Trie

/-! ### Slots that were left behind -/

/-- **What a trie with these slots is read as.** -/
theorem Torn.reads {M : Entries} {w : Key} {slots : Array Slot} {r : Trie} (h : Torn c M w slots)
    (hconfig : r.config = c) (hslots : r.pool.slots = slots) : r.ReadsAs M w := by
  obtain ⟨p, n, rfl, T, off, hlays, hholds, -, hfresh, hq, h0, -⟩ := h
  have hsame : r.SameSlots ⟨c, p⟩ := ⟨hconfig, hslots⟩
  refine ⟨fun key => ?_, fun hw => ?_, fun hw hno => ?_⟩
  · have hfind := hlays.find_eq hholds h0 key
    rw [List.reverse_reverse] at hfind
    exact (hsame.find_eq key).trans hfind
  · have hclosed : T.Holds c [] fun q => M.lookup q.reverse := by
      rcases hw with rfl | ⟨key, hM, hkey⟩
      · exact hholds
      · refine hholds.close (List.reverse_suffix.mpr hkey) ?_
        rw [List.reverse_reverse]
        exact mt Finmap.lookup_eq_none.mp (not_not.mpr hM)
    exact hsame.lists (Trie.Holds.lists ⟨T, off, hlays, hclosed⟩)
  · have hq0 : w.reverse ≠ [] := by simpa using hw
    have hnone : ∀ u : Trail, w.reverse <:+ u → M.lookup u.reverse = none := fun u hu =>
      Finmap.lookup_eq_none.mpr fun hM => hno _ hM (by rwa [← List.reverse_suffix, List.reverse_reverse])
    refine ⟨fun hstandard => ?_, fun hreduced => ?_⟩
    · rw [hconfig] at hstandard
      obtain ⟨hbase, hfault⟩ := Trie.faults_half (t := ⟨c, p⟩) hlays hholds hfresh hq h0 hq0 hnone
        hstandard hsame
      refine ⟨⟨locate off w.reverse, ?_, ?_⟩, hfault⟩
      · rw [hsame.2.walk_eq, hconfig]
        exact hlays.walk_root.mpr ⟨by simpa using h0, hq, rfl⟩
      · rwa [hsame.2.slot_eq]
    · rw [hconfig] at hreduced
      have hlisted := Trie.entries_half (t := ⟨c, p⟩) hlays hholds hfresh hq h0 hq0 hnone hreduced
      rwa [← hsame.entries_eq, List.reverse_reverse] at hlisted

end DoubleArrayTrie
