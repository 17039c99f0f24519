import DoubleArrayTrie.Proofs.Creation
import DoubleArrayTrie.Proofs.Enumeration
import DoubleArrayTrie.Proofs.Outgrowing
import DoubleArrayTrie.Proofs.Trie.Branches

/-!
# What a trie shows does not depend on where it keeps it

The encoding, the trials and the growth decide where nodes are, which keys have a terminal and which
nodes move. None of this can be seen: what calls return and what is listed, and in which order, is
decided by the calls alone and by whether siblings are kept in order. It can be told by one thing: which
trie is the first that cannot grow any more.

* `Precedes.asymm`: so there is only one list of keys in an order.
* `Trie.Shows.newest_first`: the branches of a node, where siblings are in no order.
* `Trie.independent_run`: two tries that got the same calls.
* `Trie.exists_dependent`: two tries where one has got other calls, or cannot grow any more.
-/

namespace DoubleArrayTrie

/-! ### One list in an order -/

/-- **Keys do not come before each other**, if siblings do not. -/
theorem Precedes.asymm {S : Key → UInt8 → UInt8 → Prop} (hS : ∀ w x y, S w x y → ¬ S w y x)
    {k m : Key} (hkm : Precedes S k m) : ¬ Precedes S m k := by
  have hirrefl : ∀ w x, ¬ S w x x := fun w x h => hS w x x h h
  -- two bytes after the same bytes of one key are the same
  have hbyte : ∀ {w x y} {k : Key}, w ++ [x] <+: k → w ++ [y] <+: k → x = y := by
    intro w x y k hx hy
    have hxy := List.prefix_of_prefix_length_le hx hy (by simp)
    simpa using hxy
  -- what comes after a beginning of both keys cannot part them
  have hlonger : ∀ {w x y v a b} {k m : Key}, w.length < v.length → w ++ [x] <+: k →
      w ++ [y] <+: m → v ++ [a] <+: k → v ++ [b] <+: m → x = y := by
    intro w x y v a b k m hlt hx hy ha hb
    have hle : ∀ z : UInt8, (w ++ [z]).length ≤ v.length := fun z => by
      rw [List.length_append, List.length_singleton]
      exact hlt
    exact hbyte
      (List.prefix_of_prefix_length_le hx ((List.prefix_append v [a]).trans ha) (hle x))
      (List.prefix_of_prefix_length_le hy ((List.prefix_append v [b]).trans hb) (hle y))
  intro hmk
  rcases hkm with ⟨hkm, hne⟩ | ⟨w, x, y, hxy, hx, hy⟩ <;>
    rcases hmk with ⟨hmk, hne'⟩ | ⟨v, a, b, hab, ha, hb⟩
  · exact hne (hkm.eq_of_length_le hmk.length_le)
  · obtain rfl := hbyte ha (hb.trans hkm)
    exact hirrefl _ _ hab
  · obtain rfl := hbyte hx (hy.trans hmk)
    exact hirrefl _ _ hxy
  · rcases Nat.lt_trichotomy w.length v.length with hlt | heq | hlt
    · obtain rfl := hlonger hlt hx hy hb ha
      exact hirrefl _ _ hxy
    · have hwv : w = v := (List.prefix_of_prefix_length_le ((List.prefix_append w [x]).trans hx)
        ((List.prefix_append v [b]).trans hb) heq.le).eq_of_length heq
      subst hwv
      obtain rfl := hbyte hx hb
      obtain rfl := hbyte hy ha
      exact hS _ _ _ hxy hab
    · obtain rfl := hlonger hlt ha hb hy hx
      exact hirrefl _ _ hab

/-! ### Calls that mean the same in every encoding -/

/-- A call for one key, whose value fits into either encoding. -/
def Call.InRange : Call → Prop
  | .insert _ value => 0 ≤ value.toInt ∧ value.toInt < Encoding.unset
  | .erase _ => True
  | .insertAll _ | .insertKeys _ => False

instance : DecidablePred Call.InRange
  | .insert _ _ => inferInstanceAs (Decidable (_ ∧ _))
  | .erase _ => isTrue trivial
  | .insertAll _ | .insertKeys _ => isFalse id

theorem Call.InRange.single {call : Call} (h : call.InRange) : call.Single := by
  cases call with
  | insert | erase => trivial
  | insertAll | insertKeys => exact h.elim

theorem refusal_congr {value : Int32} (h : 0 ≤ value.toInt ∧ value.toInt < Encoding.unset)
    (e e' : Encoding) (key : Key) : refusal e key value = refusal e' key value := by
  have hrange : ∀ e : Encoding,
      ¬ (e = .reduced ∧ ¬ (0 ≤ value.toInt ∧ value.toInt < Encoding.unset)) := fun _ hnot => hnot.2 h
  unfold refusal
  rw [if_neg (hrange e), if_neg (hrange e')]

theorem Entries.perform_congr {call : Call} (h : call.InRange) (e e' : Encoding) (M : Entries) :
    M.perform e call = M.perform e' call := by
  cases call with
  | insert key value => simp only [Entries.perform, refusal_congr h e e']
  | erase => rfl
  | insertAll | insertKeys => exact h.elim

/-- The entries do not depend on the encoding. -/
theorem Entries.run_congr {calls : List Call} (h : ∀ call ∈ calls, call.InRange) (e e' : Encoding)
    (M : Entries) : M.run e calls = M.run e' calls := by
  induction calls generalizing M with
  | nil => rfl
  | cons call calls ih =>
    rw [List.forall_mem_cons] at h
    simp only [Entries.run, Entries.perform_congr h.1 e e', ih h.2]

theorem Entries.madeBy_congr {calls : List Call} (h : ∀ call ∈ calls, call.InRange) (e e' : Encoding)
    {w : Key} {n : Nat} (hn : Entries.MadeBy e calls w n) : Entries.MadeBy e' calls w n := by
  have hrun : ∀ m, (∅ : Entries).run e' (calls.take m) = (∅ : Entries).run e (calls.take m) :=
    fun m => Entries.run_congr (fun call hcall => h call (List.mem_of_mem_take hcall)) e' e ∅
  refine ⟨hn.lt, ?_, fun m hm hle => ?_⟩
  · rw [hrun]
    exact hn.before
  · rw [hrun]
    exact hn.since m hm hle

theorem Entries.newer_congr {calls : List Call} (h : ∀ call ∈ calls, call.InRange) (e e' : Encoding)
    {w : Key} {x y : UInt8} (hxy : Entries.Newer e calls w x y) : Entries.Newer e' calls w x y := by
  obtain ⟨m, n, hlt, hm, hn⟩ := hxy
  exact ⟨m, n, hlt, Entries.madeBy_congr h e e' hm, Entries.madeBy_congr h e e' hn⟩

namespace Trie

variable {t u : Trie} {M : Entries} {stem : Key} {rests rests' : List Key}

/-- What a search for the keys that begin with `stem` tells of each: the bytes that it has after the
stem, their number, and the value. -/
def predictions (t : Trie) (stem : Key) : List (Except SuffixFault Key × Nat × Int32) :=
  (t.predict stem).map fun m => (t.suffixOf m, m.length, m.value)

theorem Completes.predictions_eq (h : t.Completes M stem (t.predict stem) rests) :
    t.predictions stem =
      rests.map fun rest => (.ok rest, rest.length, (M.lookup (stem ++ rest)).getD 0) := by
  rw [predictions, ← List.forall₂_eq_eq_eq, List.forall₂_map_left_iff, List.forall₂_map_right_iff]
  refine h.bytes.imp fun m rest hm => ?_
  have hlookup : M.lookup (stem ++ rest) = some m.value := hm.2.2
  rw [hm.1, hm.2.1, hlookup]
  rfl

/-- **The same keys in the same order**, if the order is one in which keys do not come before each
other. -/
theorem Completes.predictions_congr {R : Key → Key → Prop} (hR : ∀ k m, R k m → ¬ R m k)
    (ht : t.Completes M stem (t.predict stem) rests)
    (hu : u.Completes M stem (u.predict stem) rests')
    (hrests : (rests.map (stem ++ ·)).Pairwise R) (hrests' : (rests'.map (stem ++ ·)).Pairwise R) :
    t.predictions stem = u.predictions stem := by
  have hperm : rests.Perm rests' := (List.perm_ext_iff_of_nodup ht.nodup hu.nodup).mpr fun rest => by
    rw [ht.mem, hu.mem]
  rw [List.pairwise_map] at hrests hrests'
  obtain rfl := hperm.eq_of_pairwise
    (fun k m _ _ hkm hmk => absurd hmk (hR _ _ hkm)) hrests hrests'
  rw [ht.predictions_eq, hu.predictions_eq]

/-! ### The order of siblings -/

/-- The branches of a node are the bytes that come after its bytes in some key. -/
theorem Shows.mem_branches {T : Outline} (h : t.Shows T M) {q : Trail} (h0 : 0 ∉ q) {x : UInt8}
    (hx : x ≠ 0) : x ∈ T.branches q ↔ M.Begins (q.reverse ++ [x]) := by
  obtain ⟨off, hlays, hholds⟩ := h
  have hxq : 0 ∉ x :: q := by
    rw [List.mem_cons, not_or]
    exact ⟨hx.symm, h0⟩
  have hkey := mem_iff_begins M [] (q.reverse ++ [x])
  rw [List.reverse_append, List.reverse_reverse] at hkey
  have hmem : x ∈ T.branches q ↔ T.Mem (x :: q) := by
    unfold Outline.branches
    rw [List.mem_filter, and_iff_left (decide_eq_true hx)]
    refine ⟨fun hkid => ⟨?_, hkid⟩, fun hmem => hmem.2⟩
    by_contra hq
    rw [hlays.sound.outside q hq] at hkid
    simp at hkid
  rw [hmem, hholds.mem _ hxq]
  refine hkey.trans ⟨fun hb => hb.resolve_left (by simp), .inr⟩

/-- A call makes branches or takes them away. -/
theorem Shows.perform {T : Outline} (h : t.Shows T M) {call : Call} (hcall : call.Single) :
    ∃ T', (t.perform call).1.Shows T' (M.perform t.config.encoding call).1 ∧
      ∀ q, Sprouts t.config.ordered (T.branches q) (T'.branches q) ∨
        (T'.branches q).Sublist (T.branches q) := by
  cases call with
  | insert key value =>
    unfold Trie.perform Entries.perform
    dsimp only
    rw [insert_eq]
    cases hrefusal : refusal t.config.encoding key value with
    | some err => exact ⟨T, h, fun q => .inl (.inl rfl)⟩
    | none =>
      have hsound : T.Sound t.config := by
        obtain ⟨off, hlays, -⟩ := h
        exact hlays.sound
      exact ⟨_, (h.store hrefusal).1, fun q =>
        .inl (Outline.sprouts_store hsound (refusal_eq_none hrefusal).2.1 value.toInt q)⟩
  | erase key =>
    refine ⟨_, (h.erase key).1, fun q => .inr ?_⟩
    split_ifs
    · exact Outline.branches_erase T _ q
    · exact List.Sublist.refl _
  | insertAll | insertKeys => exact hcall.elim

/-- **Where siblings are in no order the newer come first**, after any calls on a new trie. -/
theorem newest_first {c : Config} (hc : c.fault? = none) (hordered : c.ordered = false)
    {calls : List Call} (hcalls : ∀ call ∈ calls, call.Single) :
    ∃ T, ((empty c).run calls).1.Shows T (Entries.run c.encoding ∅ calls).1 ∧
      ∀ q, 0 ∉ q → (T.branches q).Pairwise (Entries.Newer c.encoding calls q.reverse) := by
  induction calls using List.reverseRecOn with
  | nil => exact ⟨.empty, shows_empty hc, fun q _ => List.Pairwise.nil⟩
  | append_singleton calls call ih =>
    obtain ⟨T, hT, hnewer⟩ := ih fun call' hcall' => hcalls call' (List.mem_append_left _ hcall')
    have hconfig : ((empty c).run calls).1.config = c := ((holds_empty hc).run calls).2.1
    obtain ⟨T', hT', hbranches⟩ := hT.perform (hcalls call (by simp))
    rw [hconfig, hordered] at hbranches
    have hnext : ((empty c).run (calls ++ [call])).1.Shows T'
        (Entries.run c.encoding ∅ (calls ++ [call])).1 := by
      rw [run_append, Entries.run_append]
      rwa [hconfig] at hT'
    refine ⟨T', hnext, fun q h0 => ?_⟩
    have hclean : ∀ {U : Outline} {l}, l ∈ U.branches q → l ≠ 0 := by
      rintro U l hl rfl
      exact U.zero_notMem_branches q hl
    have hmem : ∀ l ∈ T.branches q, _ := fun l hl => (hT.mem_branches h0 (hclean hl)).mp hl
    have hmem' : ∀ l ∈ T'.branches q, _ := fun l hl => (hnext.mem_branches h0 (hclean hl)).mp hl
    rcases hbranches q with (hsame | ⟨x, hx, hnew⟩) | hsub
    · rw [hsame] at hmem' ⊢
      exact Entries.newer_of_sublist (hnewer q h0) (List.Sublist.refl _) hmem'
    · rw [insertLabel_false (T.zero_notMem_branches q)] at hnew
      have hx0 : x ≠ 0 := hclean (U := T') (by rw [hnew]; exact List.mem_cons_self)
      rw [hnew] at hmem' ⊢
      exact Entries.newer_cons (hnewer q h0) hmem (mt (hT.mem_branches h0 hx0).mpr hx) hmem'
    · exact Entries.newer_of_sublist (hnewer q h0) hsub hmem'

/-- What is listed where siblings are in no order. -/
theorem completes_newest_first {o : Options} {e : Encoding} (hcreate : create e o = .ok t)
    (hordered : o.ordered = false) {calls : List Call} (hcalls : ∀ call ∈ calls, call.Single)
    (stem : Key) : ∃ rests, (t.run calls).1.Completes (Entries.run e ∅ calls).1 stem
        ((t.run calls).1.predict stem) rests ∧
      (rests.map (stem ++ ·)).Pairwise (Precedes (Entries.Newer e calls)) := by
  obtain ⟨ho, rfl⟩ := validate_of_create hcreate
  obtain ⟨T, hT, hnewer⟩ :=
    newest_first (c := { o with encoding := e }) (create_eq ho e).2 hordered hcalls
  obtain ⟨-, rests, hcompletes, hsorted⟩ := hT.predict stem
  exact ⟨rests, hcompletes, hsorted _ fun q _ h0 => hnewer q h0⟩

/-- **What a trie shows depends on the calls alone**, and on whether it keeps siblings in order. Two new
tries, whatever their encodings, trials and growth, take any calls whose values fit into either
encoding without a fault, while neither has too many slots. They return the same; then they find the
same, and list the same keys with the same values in the same order. In a trie that keeps siblings in
no order a key comes before its extensions, and of two keys that part after the same bytes the one
whose next byte is newer there. -/
theorem independent_run {o o' : Options} {e e' : Encoding} (ht : create e o = .ok t)
    (hu : create e' o' = .ok u) (hordered : o.ordered = o'.ordered)
    (hmax : o.maxTrial ≤ 2147483647) (hmax' : o'.maxTrial ≤ 2147483647) {calls : List Call}
    (hcalls : ∀ call ∈ calls, call.InRange)
    (hcap : (t.run calls).1.pool.capacity ≤ Access.maxCapacity)
    (hcap' : (u.run calls).1.pool.capacity ≤ Access.maxCapacity) :
    (Program.performAll t.config.rules calls).run t.config t.pool =
        some ((t.run calls).1.pool, (t.run calls).2) ∧
      (Program.performAll u.config.rules calls).run u.config u.pool =
        some ((u.run calls).1.pool, (u.run calls).2) ∧
      (t.run calls).2 = (u.run calls).2 ∧
      (∀ key, (t.run calls).1.find key = (u.run calls).1.find key) ∧
      (∀ stem, (t.run calls).1.predictions stem = (u.run calls).1.predictions stem) ∧
      (o.ordered = false → ∀ stem, ∃ rests,
        (t.run calls).1.Completes (Entries.run e ∅ calls).1 stem ((t.run calls).1.predict stem)
            rests ∧
          (rests.map (stem ++ ·)).Pairwise (Precedes (Entries.Newer e calls))) := by
  have hsingle : ∀ call ∈ calls, call.Single := fun call hcall => (hcalls call hcall).single
  have hentries := Entries.run_congr hcalls e' e ∅
  have hnewest := fun hunordered => completes_newest_first ht hunordered hsingle
  have hnewest' := fun hunordered => completes_newest_first hu hunordered hsingle
  have hruns := (gives_of_create ht hmax calls).run hcap
  have hruns' := (gives_of_create hu hmax' calls).run hcap'
  obtain ⟨ho, rfl⟩ := validate_of_create ht
  obtain ⟨ho', rfl⟩ := validate_of_create hu
  obtain ⟨hholds, hconfig, hanswers⟩ := run_holds ho e calls
  obtain ⟨hholds', hconfig', hanswers'⟩ := run_holds ho' e' calls
  rw [hentries] at hholds' hanswers' hnewest'
  refine ⟨hruns, hruns', hanswers.trans hanswers'.symm, fun key => ?_, fun stem => ?_, hnewest⟩
  · rw [hholds.find, hholds'.find]
  · cases hb : o.ordered with
    | true =>
      obtain ⟨-, rests, hcompletes⟩ := hholds.predict stem
      obtain ⟨-, rests', hcompletes'⟩ := hholds'.predict stem
      have hasymm : ∀ k m : Key, k < m → ¬ m < k := fun _ _ => List.lt_asymm
      exact hcompletes.predictions_congr hasymm hcompletes'
        (hcompletes.ordered (by rw [hconfig]; exact hb))
        (hcompletes'.ordered (by rw [hconfig', ← hb]; exact hordered.symm))
    | false =>
      obtain ⟨rests, hcompletes, hsorted⟩ := hnewest hb stem
      obtain ⟨rests', hcompletes', hsorted'⟩ := hnewest' (hordered.symm.trans hb) stem
      have hasymm : ∀ k m, Precedes (Entries.Newer e calls) k m →
          ¬ Precedes (Entries.Newer e calls) m k :=
        fun _ _ => Precedes.asymm fun _ _ _ hxy => hxy.asymm
      refine hcompletes.predictions_congr hasymm hcompletes' hsorted (hsorted'.imp ?_)
      exact Precedes.imp fun w x y => Entries.newer_congr hcalls e' e

/-- Two tries that keep siblings in no order: one of the standard encoding, and a reduced one with
other trials and growth. The key `ab` is erased and stored anew, so that it comes before `ac`. -/
theorem independent_run_unordered : ∃ t u, create .standard { ordered := false } = .ok t ∧
    create .reduced { ordered := false, maxTrial := 2, growth := .linear 1 } = .ok u ∧
    ∃ calls, calls = [.insert [97, 98] 1, .insert [97, 99] 2, .erase [97, 98], .insert [97, 98] 3] ∧
      (t.run calls).1.pool.capacity ≤ Access.maxCapacity ∧
      (u.run calls).1.pool.capacity ≤ Access.maxCapacity ∧
      (t.run calls).2 = (u.run calls).2 ∧
      ∀ stem, (t.run calls).1.predictions stem = (u.run calls).1.predictions stem := by
  have ht := (create_eq (o := { ordered := false }) rfl .standard).1
  have hu := (create_eq (o := { ordered := false, maxTrial := 2, growth := .linear 1 }) rfl
    .reduced).1
  have hcap : ∀ {e : Encoding} {o : Options} {v : Trie}, create e o = .ok v →
      (v.run [.insert [97, 98] 1, .insert [97, 99] 2, .erase [97, 98],
        .insert [97, 98] 3]).1.pool.capacity ≤ Access.maxCapacity := fun hv =>
    (capacity_run_of_create hv _).trans (by decide)
  obtain ⟨-, -, hanswers, -, hpredictions, -⟩ :=
    independent_run ht hu rfl (by decide) (by decide) (by decide) (hcap ht) (hcap hu)
  exact ⟨_, _, ht, hu, _, rfl, hcap ht, hcap hu, hanswers, hpredictions⟩

/-- **Tries may differ all the same**: where they have not got the same calls before; and where one of
two new tries, which have got the same, cannot grow any more. -/
theorem exists_dependent :
    (∃ t u, create .standard {} = .ok t ∧ create .reduced {} = .ok u ∧
      ((t.run [.insert [97] 1]).1.run [.insert [97] 2]).2 ≠
        ((u.run [.insert [97] 2]).1.run [.insert [97] 2]).2) ∧
    ∃ t u, create .standard {} = .ok t ∧ create .standard { growth := .linear 3145728 } = .ok u ∧
      ∃ calls, (∀ call ∈ calls, call.InRange) ∧
        (Program.performAll t.config.rules calls).run t.config t.pool =
          some ((t.run calls).1.pool, (t.run calls).2) ∧
        (Program.performAll u.config.rules calls).run u.config u.pool = none := by
  constructor
  · obtain ⟨hcreate, hc⟩ := create_eq (o := {}) rfl .standard
    obtain ⟨hcreate', hc'⟩ := create_eq (o := {}) rfl .reduced
    obtain ⟨hholds, hconfig, -⟩ := (holds_empty (c := { encoding := .standard }) hc).run
      [.insert [97] 1]
    obtain ⟨hholds', hconfig', -⟩ := (holds_empty (c := { encoding := .reduced }) hc').run
      [.insert [97] 2]
    obtain ⟨-, -, hanswers⟩ := hholds.run [.insert [97] 2]
    obtain ⟨-, -, hanswers'⟩ := hholds'.run [.insert [97] 2]
    refine ⟨_, _, hcreate, hcreate', ?_⟩
    rw [hanswers, hanswers', hconfig, hconfig']
    have h₁ : refusal .standard [97] 1 = none := by decide
    have h₂ : refusal .standard [97] 2 = none := by decide
    have h₃ : refusal .reduced [97] 2 = none := by decide
    show (Entries.run .standard (Entries.run .standard ∅ _).1 _).2 ≠
      (Entries.run .reduced (Entries.run .reduced ∅ _).1 _).2
    simp [Entries.run, Entries.perform, h₁, h₂, h₃]
  · have ht := (create_eq (o := {}) rfl .standard).1
    have hu := (create_eq (o := { growth := .linear 3145728 }) rfl .standard).1
    obtain ⟨n, hcap, hcap'⟩ := exists_outgrown (o := {}) ht hu (by decide)
    refine ⟨_, _, ht, hu, storing n, fun call hcall => ?_,
      (gives_of_create ht (by decide) _).run hcap, (gives_of_create hu (by decide) _).fault hcap'⟩
    obtain ⟨i, -, rfl⟩ := List.mem_map.mp hcall
    exact (by decide : 0 ≤ (0 : Int32).toInt ∧ (0 : Int32).toInt < Encoding.unset)

end Trie

end DoubleArrayTrie
