import DoubleArrayTrie.Proofs.Trie.Reading
import DoubleArrayTrie.Proofs.Trie.Relocating

/-!
# Storing a value

Each step of storing a value does to the outline what its definition for outlines says, and puts the
nodes at some offsets. Relocations happen at one place only, where a node with children gets one more.

* `ensurePath_of_walk`: nothing is made where a query finds a node.
* `Lays.ensureChild`: a child is found or made.
* `Lays.ensurePath`: so are all nodes of a key.
* `Lays.store`: the outline has the value, and the value before it is returned.
-/

namespace DoubleArrayTrie

namespace Pool

variable {c : Config} {p : Pool} {T : Outline} {off : Trail → Nat} {q : Trail} {l x : UInt8} {w : Int}

/-! ### Where nothing is made -/

section Walk

variable {key : Key} {label : UInt8} {k m n : Nat}

/-- A child that is found is at the offset of its parent and names it. -/
theorem child?_eq_some (h : p.child? c n label = some m) :
    ∃ k, c.encoding.offset? (p.slot n).base = some k ∧ (p.slot (k ^^^ label.toNat)).check = n ∧
      k ^^^ label.toNat = m := by
  unfold child? at h
  split_ifs at h with hlabel
  split at h
  · simp at h
  · next k hk =>
    split_ifs at h with hcheck
    exact ⟨k, hk, hcheck, Option.some.inj h⟩

/-- A child that is there is not made. -/
theorem ensureChild_of_check (hk : c.encoding.offset? (p.slot n).base = some k)
    (hcheck : (p.slot (k ^^^ label.toNat)).check = n) :
    p.ensureChild c n label = (p, k ^^^ label.toNat) := by
  unfold ensureChild
  rw [hk]
  dsimp only
  rw [hcheck, if_neg (by omega), if_pos rfl]

/-- A node that can have children is no leaf with a value, so it keeps its word. -/
theorem openLeaf_of_offset? (hk : c.encoding.offset? (p.slot n).base = some k) :
    p.openLeaf c n = p := by
  refine if_neg fun hholds => ?_
  rw [Encoding.offset?_of_holdsValue hholds.1] at hk
  simp at hk

/-- **Where a query finds a node, none is made.** -/
theorem ensurePath_of_walk (h : p.walk c n key = some m) : p.ensurePath c n key = (p, m) := by
  induction key generalizing n with
  | nil => exact congrArg (Prod.mk p) (Option.some.inj h)
  | cons label key ih =>
    unfold walk at h
    split at h
    · simp at h
    · next next hnext =>
      obtain ⟨k, hk, hcheck, rfl⟩ := child?_eq_some hnext
      unfold ensurePath
      dsimp only
      rw [openLeaf_of_offset? hk, ensureChild_of_check hk hcheck]
      exact ih h

end Walk

namespace Lays

/-- A leaf gets another word. -/
theorem setWord (h : p.Lays c T off) (ht : T.Mem (l :: q)) (hk : T.kids (l :: q) = [])
    (hw : l ≠ 0 → c.encoding.offset? w = none) :
    (p.setBase (locate off (l :: q)) w).Lays c (T.setWord (l :: q) w) off := by
  have hsound : (T.setWord (l :: q) w).Sound c := by
    refine h.sound.setWord ?_
    rintro m u heq hm
    obtain ⟨rfl, -⟩ := List.cons.inj heq
    exact hw hm
  refine ⟨hsound, (h.draws.setBase ht w).congr (fun v => Outline.mem_setWord) (fun _ _ => rfl)
    fun v hv => ?_, h.root, h.deep⟩
  by_cases hvl : v = l :: q
  · subst hvl
    rw [Function.update_self]
    simp only [Outline.slot, Outline.kids_setWord, hk, if_true, Outline.word_setWord_self]
  · rw [Function.update_of_ne hvl]
    rcases v with _ | ⟨m, u⟩
    · rfl
    · simp only [Outline.slot, Outline.kids_setWord, Outline.word_setWord_of_ne hvl]

/-! ### One child -/

/-- A leaf gets its first child, and stays where it is. -/
theorem firstChild (h : p.Lays c T off) (hq : T.Mem q) (hq0 : q ≠ []) (hkids : T.kids q = [])
    (hterm : ∀ r, q ≠ 0 :: r) (x : UInt8) : ∃ off',
      (p.ensureChild c (locate off q) x).1.Lays c (T.graft c q x) off' ∧
      (p.ensureChild c (locate off q) x).2 = locate off' (x :: q) ∧
      locate off' q = locate off q := by
  obtain ⟨hkept, hlive, hfree, hle⟩ := h.draws.kept.placeOne
  have hplaced : (p.placeOne c).1.Lays c T off :=
    ⟨h.sound, h.draws.of_live hkept hlive, h.root, h.deep⟩
  have hleaf : ¬ (q = [] ∨ T.kids q ≠ []) := by tauto
  unfold ensureChild
  rw [h.offset?_base hq hterm, if_neg hleaf]
  refine ⟨_, hplaced.graft_leaf hq hq0 hkids hterm hfree hle, ?_, locate_update_of_ne (by simp)⟩
  rw [locate_update_cons, xor_label_cancel]

/-- A slot of no node, at the offset of a node, is free. -/
theorem free_of_check (h : p.Lays c T off) (hq : T.Mem q) (hk : q = [] ∨ T.kids q ≠ [])
    (hroot : q ≠ [] ∨ x ≠ 0) (hcheck : (p.slot (off q ^^^ x.toNat)).check < 0) :
    p.Free (off q ^^^ x.toNat) := by
  refine ⟨?_, h.draws.kept.xor_lt x (h.off_lt_size hq hk), hcheck⟩
  by_cases hq0 : q = []
  · rw [hq0, h.root, Nat.zero_xor]
    exact UInt8.pos_iff_ne_zero.mpr (hroot.resolve_left (not_not.mpr hq0))
  · have hle : blockSize ≤ off q ^^^ x.toNat := by
      rw [blockSize_le_iff, blockOf_xor]
      exact blockSize_le_iff.mp (h.deep q hq0 (hk.resolve_left hq0))
    exact lt_of_lt_of_le (by decide) hle

/-- Nobody but the root has children where the root has its children. -/
theorem mem_kids_root (h : p.Lays c T off) (hcheck : 0 ≤ (p.slot (off [] ^^^ x.toNat)).check) :
    x ∈ T.kids [] := by
  have hlt := h.draws.kept.xor_lt x (h.off_lt_size (t := []) trivial (.inl rfl))
  obtain ⟨v, hv, hloc, hslot⟩ := h.draws.exists_of_check hlt hcheck
  rcases v with _ | ⟨y, u⟩
  · -- the root names no parent
    rw [hslot] at hcheck
    exact absurd hcheck (by decide : ¬ (0 : Int) ≤ -1)
  · have hu : u = [] := by
      by_contra hne
      have hle := (h.blockSize_le_locate hv).mpr hne
      rw [hloc, h.root, blockSize_le_iff, blockOf_xor] at hle
      simp [blockOf] at hle
    subst hu
    obtain rfl : y = x := xor_label_inj.mp hloc
    exact hv.2

/-- **A child is found or made.** -/
theorem ensureChild (h : p.Lays c T off) (hq : T.Mem q) (hroot : q ≠ [] ∨ x ≠ 0)
    (hterm : ∀ r, q ≠ 0 :: r) : ∃ off',
      (p.ensureChild c (locate off q) x).1.Lays c (T.ensure c q x) off' ∧
      (p.ensureChild c (locate off q) x).2 = locate off' (x :: q) := by
  unfold Outline.ensure
  by_cases hk : q = [] ∨ T.kids q ≠ []
  · unfold Pool.ensureChild
    rw [h.offset?_base hq hterm, if_pos hk]
    dsimp only
    by_cases hneg : (p.slot (off q ^^^ x.toNat)).check < 0
    · have hx : x ∉ T.kids q := by
        rw [← h.check_eq_iff hq hk]
        omega
      rw [if_neg hx, if_pos hneg]
      exact ⟨off, h.graft_free hq hk hx hroot hterm (h.free_of_check hq hk hroot hneg), rfl⟩
    · rw [if_neg hneg]
      by_cases hx : x ∈ T.kids q
      · rw [if_pos hx, if_pos ((h.check_eq_iff hq hk x).mpr hx)]
        exact ⟨off, h, rfl⟩
      · rw [if_neg hx, if_neg fun hc => hx ((h.check_eq_iff hq hk x).mp hc)]
        have hcheck := not_lt.mp hneg
        have hq0 : q ≠ [] := by
          rintro rfl
          exact hx (h.mem_kids_root hcheck)
        exact h.relocate hq hq0 (hk.resolve_left hq0) hx hcheck
  · rw [not_or, not_not] at hk
    obtain ⟨off', hlays, hslot, -⟩ := h.firstChild hq hk.1 hk.2 hterm x
    rw [if_neg (by rw [hk.2]; simp)]
    exact ⟨off', hlays, hslot⟩

/-- A leaf that has a value gives it to a terminal. -/
theorem openLeaf (h : p.Lays c T off) (hq : T.Mem q) (h0 : 0 ∉ q) : ∃ off',
    (p.openLeaf c (locate off q)).Lays c (T.openLeaf c q) off' ∧ locate off' q = locate off q := by
  have hleaf := h.leafValue?_eq hq
  unfold Pool.openLeaf
  dsimp only
  by_cases hholds : c.encoding.holdsValue (p.slot (locate off q)).base = true ∧
      (p.slot (locate off q)).base ≠ Encoding.unset
  · rw [if_pos hholds] at hleaf ⊢
    obtain ⟨hq0, hkids, -⟩ := Outline.leafValue?_eq_some hleaf
    obtain ⟨off', hlays, hslot, hself⟩ := h.firstChild hq hq0 hkids (Outline.ne_terminal h0) 0
    have hx : 0 ∉ T.kids q := by rw [hkids]; simp
    unfold Outline.openLeaf
    rw [hleaf, hslot]
    refine ⟨off', hlays.setWord ?_ (hlays.sound.terminal q) (absurd rfl), hself⟩
    exact (h.sound.mem_graft hq hx _).mpr (.inr rfl)
  · rw [if_neg hholds] at hleaf ⊢
    unfold Outline.openLeaf
    rw [hleaf]
    exact ⟨off, h, rfl⟩

/-! ### A whole key -/

/-- **The nodes of a key are found or made.** -/
theorem ensurePath {key : Key} (h : p.Lays c T off) (hq : T.Mem q) (h0 : 0 ∉ q) (hkey : 0 ∉ key) :
    ∃ off', (p.ensurePath c (locate off q) key).1.Lays c (T.extend c q key) off' ∧
      (p.ensurePath c (locate off q) key).2 = locate off' (key.reverse ++ q) := by
  induction key generalizing p T off q with
  | nil => exact ⟨off, h, rfl⟩
  | cons x key ih =>
    rw [List.mem_cons, not_or] at hkey
    have hx0 : x ≠ 0 := Ne.symm hkey.1
    obtain ⟨off₁, hopen, hself⟩ := h.openLeaf hq h0
    have hq' := (Outline.mem_openLeaf h.sound hq h0).mpr hq
    obtain ⟨off₂, hensure, hslot⟩ := hopen.ensureChild hq' (.inr hx0) (Outline.ne_terminal h0)
    have hxq : 0 ∉ x :: q := by
      rw [List.mem_cons, not_or]
      exact ⟨hkey.1, h0⟩
    obtain ⟨off₃, hlays, hend⟩ := ih hensure (Outline.mem_ensure_self hopen.sound hq' x) hxq hkey.2
    rw [hself] at hensure hslot hlays hend
    unfold Pool.ensurePath Outline.extend
    dsimp only
    rw [hslot]
    refine ⟨off₃, hlays, ?_⟩
    rw [hend, List.reverse_cons, List.append_assoc]
    rfl

/-- **A value is stored**, and the value before it is returned. -/
theorem store {key : Key} {v : Int32} (h : p.Lays c T off) (hkey : key ≠ []) (h0 : 0 ∉ key)
    (hv : c.encoding.accepts v = true) : ∃ off',
      (p.store c key v).1.Lays c (T.store c key v.toInt) off' ∧
      (p.store c key v).2 = (Lookup.ofValue ((T.extend c [] key).value? c key.reverse)).value? := by
  have hkey' : key.reverse ≠ [] := by simpa using hkey
  have h0' : 0 ∉ key.reverse := by rwa [List.mem_reverse]
  have hterm := Outline.ne_terminal h0'
  obtain ⟨off₁, hpath, hslot⟩ := h.ensurePath (q := []) trivial (by simp) h0
  obtain ⟨-, hmem⟩ := h.sound.extend (q := []) trivial (by simp) h0
  rw [List.append_nil] at hslot hmem
  have hroot : locate off [] = 0 := rfl
  rw [hroot] at hpath hslot
  unfold Pool.store Outline.store Outline.setValue
  dsimp only
  rw [hslot, hpath.valueAt_eq hmem hterm]
  have hholds := hpath.holdsValue_base hmem
  by_cases hleaf : (T.extend c [] key).kids key.reverse = [] ∧
      c.encoding.holdsValue ((T.extend c [] key).word key.reverse) = true
  · rw [if_pos (hholds.mpr ⟨hkey', hleaf⟩), if_pos hleaf]
    obtain ⟨l, u, hlu⟩ := List.exists_cons_of_ne_nil hkey'
    rw [hlu] at hmem hleaf ⊢
    have hoffset := Encoding.offset?_of_holdsValue (Encoding.holdsValue_of_accepts hleaf.2 hv).1
    exact ⟨off₁, hpath.setWord hmem hleaf.1 fun _ => hoffset, rfl⟩
  · rw [if_neg fun hc => hleaf (hholds.mp hc).2, if_neg hleaf]
    obtain ⟨off₂, hensure, hend⟩ := hpath.ensureChild (x := 0) hmem (.inl hkey') hterm
    rw [hend]
    exact ⟨off₂, hensure.setWord (Outline.mem_ensure_self hpath.sound hmem 0)
      (hensure.sound.terminal _) (absurd rfl), rfl⟩

end Lays

end Pool

end DoubleArrayTrie
