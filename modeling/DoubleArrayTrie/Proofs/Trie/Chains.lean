import Mathlib.Data.List.Perm.Subperm
import Mathlib.Data.List.Nodup
import DoubleArrayTrie.Trie.Siblings

/-!
# Chains as lists of labels

A chain is followed along the `sibling` labels of its slots. `Links p k ls` says that the slots at
offset `k` hold the chain `ls`, and `nextLabel` is what such a slot then names.

* `chainFrom_eq`: following the links yields the list.
* `linkChild_eq`: a label is linked in where `insertLabel` puts it, by two writes.
* `unlinkChild_eq`: a label is linked out by one write.
-/

namespace DoubleArrayTrie

/-- The label after `l`, `0` at the end. -/
def nextLabel (l : UInt8) : List UInt8 → UInt8
  | [] => 0
  | a :: ls => if a = l then ls.headD 0 else nextLabel l ls

/-- The labels of a chain are different, and only the first may be the one of a terminal. -/
structure IsLabels (ls : List UInt8) : Prop where
  nodup : ls.Nodup
  tail : 0 ∉ ls.tail

variable {l x a : UInt8} {ls pre post : List UInt8}

theorem nextLabel_cons_self (l : UInt8) (ls : List UInt8) : nextLabel l (l :: ls) = ls.headD 0 :=
  if_pos rfl

theorem nextLabel_cons_of_ne (h : a ≠ l) (ls : List UInt8) :
    nextLabel l (a :: ls) = nextLabel l ls := if_neg h

theorem nextLabel_append (h : l ∉ pre) : nextLabel l (pre ++ post) = nextLabel l post := by
  induction pre with
  | nil => rfl
  | cons a pre ih =>
    rw [List.mem_cons, not_or] at h
    rw [List.cons_append, nextLabel_cons_of_ne (Ne.symm h.1), ih h.2]

/-- A label that joins changes what comes after the label before it, and nothing else. -/
theorem nextLabel_insert (h : (pre ++ x :: post).Nodup) (l : UInt8) :
    nextLabel l (pre ++ x :: post) = if l = x then post.headD 0
      else if pre.getLast? = some l then x else nextLabel l (pre ++ post) := by
  induction pre with
  | nil =>
    by_cases hl : l = x
    · rw [if_pos hl, hl]
      exact nextLabel_cons_self x post
    · rw [if_neg hl]
      exact nextLabel_cons_of_ne (Ne.symm hl) post
  | cons a pre ih =>
    obtain ⟨ha, hnd⟩ := List.nodup_cons.mp h
    have hax : a ≠ x := by rintro rfl; simp at ha
    by_cases hal : a = l
    · subst hal
      rw [List.cons_append, nextLabel_cons_self, if_neg hax, List.cons_append, nextLabel_cons_self]
      rcases pre with _ | ⟨b, pre⟩
      · simp
      · have hlast : (a :: b :: pre).getLast? ≠ some a := by
          intro hlast
          rw [List.getLast?_cons_cons] at hlast
          exact ha (List.mem_append_left _ (List.mem_of_getLast? hlast))
        rw [if_neg hlast]
        rfl
    · rw [List.cons_append, nextLabel_cons_of_ne hal, ih hnd, List.cons_append,
        nextLabel_cons_of_ne hal]
      rcases pre with _ | ⟨b, pre⟩
      · simp [hal]
      · rw [List.getLast?_cons_cons]

theorem nextLabel_getLast (h : (pre ++ post).Nodup) (hl : pre.getLast? = some l) :
    nextLabel l (pre ++ post) = post.headD 0 := by
  obtain ⟨t, rfl⟩ := List.getLast?_eq_some_iff.mp hl
  have hlt : l ∉ t := by
    intro hm
    have hnd := (List.nodup_append.mp h).1
    exact (List.nodup_append.mp hnd).2.2 l hm l (by simp) rfl
  rw [List.append_assoc, nextLabel_append hlt]
  exact nextLabel_cons_self l post

theorem IsLabels.of_cons (h : IsLabels (a :: ls)) : IsLabels ls :=
  ⟨(List.nodup_cons.mp h.nodup).2, fun h0 => h.tail (List.mem_of_mem_tail h0)⟩

/-- A label is in one place of its chain, and is followed by what comes after it there. -/
theorem IsLabels.of_split (h : IsLabels ls) (hsplit : ls = pre ++ l :: post) :
    l ∉ pre ∧ post.headD 0 = nextLabel l ls := by
  have hnd := h.nodup
  rw [hsplit] at hnd
  have hpre : l ∉ pre := fun hm => (List.nodup_append.mp hnd).2.2 l hm l List.mem_cons_self rfl
  refine ⟨hpre, ?_⟩
  rw [hsplit, nextLabel_append hpre, nextLabel_cons_self]

/-- The label of a terminal is the first one. -/
theorem IsLabels.exists_cons (h : IsLabels ls) (h0 : 0 ∈ ls) : ∃ ms, ls = 0 :: ms := by
  rcases ls with _ | ⟨l, ls⟩
  · simp at h0
  · exact ⟨ls, by rw [(List.mem_cons.mp h0).resolve_right h.tail]⟩

/-- There are no more labels than a node may have children. -/
theorem length_le_of_nodup (h : ls.Nodup) : ls.length ≤ maxChildren := by
  have hnd : (ls.map UInt8.toNat).Nodup := h.map fun a b hab => UInt8.toNat_inj.mp hab
  have hsub : ls.map UInt8.toNat ⊆ List.range maxChildren := by
    intro n hn
    obtain ⟨l, -, rfl⟩ := List.mem_map.mp hn
    exact List.mem_range.mpr l.toNat_lt
  have hlen := (List.subperm_of_subset hnd hsub).length_le
  rwa [List.length_map, List.length_range] at hlen

theorem IsLabels.length_le (h : IsLabels ls) : ls.length ≤ maxChildren := length_le_of_nodup h.nodup

/-! ### Where a label is inserted -/

theorem mem_insertLabel {o : Bool} : l ∈ insertLabel o x ls ↔ l = x ∨ l ∈ ls := by
  induction ls with
  | nil => simp [insertLabel]
  | cons a ls ih =>
    unfold insertLabel
    split_ifs
    · rw [List.mem_cons, ih, List.mem_cons]
      tauto
    · rw [List.mem_cons]

theorem insertLabel_ne_nil {o : Bool} : insertLabel o x ls ≠ [] :=
  List.ne_nil_of_mem (mem_insertLabel.mpr (.inl rfl))

theorem perm_insertLabel (o : Bool) (x : UInt8) (ls : List UInt8) :
    (insertLabel o x ls).Perm (x :: ls) := by
  induction ls with
  | nil => exact .refl _
  | cons a ls ih =>
    unfold insertLabel
    split_ifs
    · exact (ih.cons a).trans (.swap x a ls)
    · exact .refl _

theorem IsLabels.insertLabel (h : IsLabels ls) (hx : x ∉ ls) (o : Bool) :
    IsLabels (insertLabel o x ls) := by
  refine ⟨(perm_insertLabel o x ls).nodup_iff.mpr (List.nodup_cons.mpr ⟨hx, h.nodup⟩), ?_⟩
  rcases ls with _ | ⟨a, t⟩
  · simp [DoubleArrayTrie.insertLabel]
  unfold DoubleArrayTrie.insertLabel
  have ht : 0 ∉ t := h.tail
  split_ifs with ha
  · rw [List.tail_cons, mem_insertLabel]
    rintro (rfl | h0)
    · -- the terminal does not come after a label
      rcases ha with rfl | ⟨-, hle⟩
      · simp at hx
      · exact hx (by rw [UInt8.le_antisymm hle (UInt8.zero_le)]; simp)
    · exact ht h0
  · rw [List.tail_cons, List.mem_cons, not_or]
    exact ⟨fun h0 => ha (.inl h0.symm), ht⟩

theorem IsLabels.erase (h : IsLabels ls) (x : UInt8) : IsLabels (ls.erase x) := by
  refine ⟨h.nodup.erase x, ?_⟩
  rcases ls with _ | ⟨a, t⟩
  · simp
  · rw [List.erase_cons]
    split_ifs
    · exact fun h0 => h.tail (List.mem_of_mem_tail h0)
    · exact fun h0 => h.tail (List.mem_of_mem_erase h0)

/-- A chain that loses its only label. -/
theorem eq_singleton_of_erase (hx : x ∈ ls) (h : ls.erase x = []) : ls = [x] := by
  have hlen := List.length_erase_of_mem hx
  rw [h, List.length_nil] at hlen
  have hpos := List.length_pos_of_mem hx
  obtain ⟨a, rfl⟩ := List.length_eq_one_iff.mp (show ls.length = 1 by omega)
  rw [List.mem_singleton.mp hx]

/-- Labels in ascending order stay in order. -/
theorem pairwise_insertLabel (h : ls.Pairwise (· < ·)) (hx : x ∉ ls) :
    (insertLabel true x ls).Pairwise (· < ·) := by
  induction ls with
  | nil => exact List.pairwise_singleton _ _
  | cons a ls ih =>
    obtain ⟨ha, hls⟩ := List.pairwise_cons.mp h
    rw [List.mem_cons, not_or] at hx
    unfold insertLabel
    split_ifs with hax
    · refine List.pairwise_cons.mpr ⟨fun b hb => ?_, ih hls hx.2⟩
      rcases mem_insertLabel.mp hb with rfl | hb
      · rcases hax with rfl | ⟨-, hle⟩
        · exact UInt8.pos_iff_ne_zero.mpr hx.1
        · exact UInt8.lt_of_le_of_ne hle (Ne.symm hx.1)
      · exact ha b hb
    · have hxa : x < a := by
        rw [← UInt8.not_le]
        exact fun hle => hax (.inr ⟨rfl, hle⟩)
      refine List.pairwise_cons.mpr ⟨fun b hb => ?_, h⟩
      rcases List.mem_cons.mp hb with rfl | hb
      · exact hxa
      · exact UInt8.lt_trans hxa (ha b hb)

namespace Pool

variable {p : Pool} {k n : Nat}

/-- The slots at offset `k` hold the chain. -/
def Links (p : Pool) (k : Nat) (ls : List UInt8) : Prop :=
  ∀ l ∈ ls, (p.slot (k ^^^ l.toNat)).sibling = nextLabel l ls

theorem Links.of_cons (h : p.Links k (a :: ls)) (hls : IsLabels (a :: ls)) : p.Links k ls := by
  intro l hl
  have hal : a ≠ l := by
    rintro rfl
    exact (List.nodup_cons.mp hls.nodup).1 hl
  rw [h l (List.mem_cons_of_mem _ hl), nextLabel_cons_of_ne hal]

theorem Links.sibling_head (h : p.Links k (a :: ls)) :
    (p.slot (k ^^^ a.toNat)).sibling = ls.headD 0 :=
  (h a List.mem_cons_self).trans (nextLabel_cons_self a ls)

/-- **Following the links yields the list.** -/
theorem chainFrom_eq (h : p.Links k (l :: ls)) (hls : IsLabels (l :: ls))
    (hn : (l :: ls).length ≤ n) : p.chainFrom k n l = l :: ls := by
  induction ls generalizing l n with
  | nil =>
    rcases n with _ | n
    · simp at hn
    unfold chainFrom
    rw [h.sibling_head]
    rfl
  | cons m ls ih =>
    rcases n with _ | n
    · simp at hn
    have hm : m ≠ 0 := fun h0 => hls.tail (by simp [h0])
    unfold chainFrom
    rw [h.sibling_head, List.headD_cons]
    dsimp only
    rw [if_neg hm, ih (h.of_cons hls) hls.of_cons (by simpa using hn)]

/-! ### A label is linked in -/

/-- In order a label comes before the labels above it. -/
theorem insertLabel_of_lt (h : x < l) : insertLabel true x (l :: ls) = x :: l :: ls := by
  rw [insertLabel, if_neg]
  rintro (rfl | ⟨-, hle⟩)
  · exact UInt8.not_lt_zero h
  · exact absurd h (UInt8.not_lt.mpr hle)

/-- Otherwise it comes first, but after the terminal. -/
theorem insertLabel_of_ne_zero (h : l ≠ 0) : insertLabel false x (l :: ls) = x :: l :: ls := by
  rw [insertLabel, if_neg (by simp [h])]

/-- A chain is walked to the place where a label is inserted in order. -/
theorem lastBelow_spec (h : p.Links k (l :: ls)) (hls : IsLabels (l :: ls)) (hlx : l < x)
    (hx : x ∉ l :: ls) (hn : ls.length ≤ n) : ∃ pre post, l :: ls = pre ++ post ∧
      insertLabel true x (l :: ls) = pre ++ x :: post ∧
      pre.getLast? = some (p.lastBelow k x n l) := by
  have hle : l = 0 ∨ true = true ∧ l ≤ x := .inr ⟨rfl, UInt8.le_of_lt hlx⟩
  induction ls generalizing l n with
  | nil =>
    refine ⟨[l], [], rfl, ?_, ?_⟩
    · unfold insertLabel
      rw [if_pos hle]
      rfl
    · rcases n with _ | n
      · rfl
      · unfold lastBelow
        rw [h.sibling_head]
        rfl
  | cons m ls ih =>
    rcases n with _ | n
    · simp at hn
    have hm : m ≠ 0 := fun h0 => hls.tail (by simp [h0])
    unfold lastBelow
    rw [h.sibling_head, List.headD_cons]
    dsimp only
    by_cases hmx : m < x
    · obtain ⟨pre, post, hsplit, hinsert, hlast⟩ := ih (h.of_cons hls) hls.of_cons hmx
        (fun hx' => hx (List.mem_cons_of_mem _ hx')) (by simpa using hn)
        (.inr ⟨rfl, UInt8.le_of_lt hmx⟩)
      refine ⟨l :: pre, post, by rw [hsplit]; rfl, ?_, ?_⟩
      · rw [insertLabel, if_pos hle, hinsert]
        rfl
      · rw [if_pos ⟨hm, hmx⟩, ← hlast]
        rcases pre with _ | ⟨b, pre⟩
        · simp at hlast
        · rw [List.getLast?_cons_cons]
    · have hxm : x ≠ m := by
        rintro rfl
        simp at hx
      refine ⟨[l], m :: ls, rfl, ?_, ?_⟩
      · rw [insertLabel, if_pos hle,
          insertLabel_of_lt (UInt8.lt_of_le_of_ne (UInt8.not_lt.mp hmx) hxm)]
        rfl
      · rw [if_neg fun h => hmx h.2]
        rfl

/-- The two writes that link a label in between the labels before and after it. -/
def linkBetween (p : Pool) (n k : Nat) (x : UInt8) (pre post : List UInt8) : Pool :=
  (match pre.getLast? with
    | none => p.setChild n x
    | some a => p.setSibling (k ^^^ a.toNat) x).setSibling (k ^^^ x.toNat) (post.headD 0)

/-- The label becomes the first child of its node, -/
theorem linkChild_front {o hasChildren : Bool}
    (hchild : (p.slot n).child = ls.headD 0) (hcond : ¬ (hasChildren = true ∧
      (if o then (p.slot n).child < x else (p.slot n).child = 0))) :
    p.linkChild o n k x hasChildren = p.linkBetween n k x [] ls := by
  unfold linkChild
  dsimp only
  rw [if_neg hcond, hchild]
  rfl

/-- or comes after the last of some labels. -/
theorem linkChild_after {o hasChildren : Bool}
    (h : p.Links k (pre ++ post)) (hnodup : (pre ++ post).Nodup) (hlast : pre.getLast? = some a)
    (hcond : hasChildren = true ∧
      (if o then (p.slot n).child < x else (p.slot n).child = 0))
    (ha : (if o then p.lastBelow k x maxChildren (p.slot n).child else (p.slot n).child) = a) :
    p.linkChild o n k x hasChildren = p.linkBetween n k x pre post := by
  have hmem : a ∈ pre ++ post := List.mem_append_left _ (List.mem_of_getLast? hlast)
  unfold linkChild linkBetween
  dsimp only
  rw [if_pos hcond, ha, hlast, h a hmem]
  dsimp only
  rw [nextLabel_getLast hnodup hlast]

/-- **A label is linked in where `insertLabel` puts it.** -/
theorem linkChild_eq {o : Bool} {n : Nat} (h : p.Links k ls) (hls : IsLabels ls) (hx : x ∉ ls)
    (hchild : (p.slot n).child = ls.headD 0) : ∃ pre post, ls = pre ++ post ∧
      insertLabel o x ls = pre ++ x :: post ∧
      p.linkChild o n k x (!ls.isEmpty) = p.linkBetween n k x pre post := by
  rcases ls with _ | ⟨a, t⟩
  · exact ⟨[], [], rfl, rfl, linkChild_front hchild (by simp)⟩
  have hxa : x ≠ a := by rintro rfl; simp at hx
  have hnodup := hls.nodup
  cases o with
  | true =>
    by_cases hax : a < x
    · obtain ⟨pre, post, hsplit, hinsert, hlast⟩ := lastBelow_spec (n := maxChildren) h hls hax hx
        (by have := hls.length_le; simp only [List.length_cons] at this; omega)
      rw [hsplit] at h hnodup
      exact ⟨pre, post, hsplit, hinsert,
        linkChild_after h hnodup hlast ⟨rfl, by simpa [hchild] using hax⟩ (by simp [hchild])⟩
    · have hlt := UInt8.lt_of_le_of_ne (UInt8.not_lt.mp hax) hxa
      exact ⟨[], a :: t, rfl, insertLabel_of_lt hlt,
        linkChild_front hchild (by simpa [hchild] using hax)⟩
  | false =>
    by_cases ha : a = 0
    · subst ha
      have htail : insertLabel false x t = x :: t := by
        rcases t with _ | ⟨b, t⟩
        · rfl
        · exact insertLabel_of_ne_zero fun h0 => hls.tail (by simp [h0])
      exact ⟨[0], t, rfl, by rw [insertLabel, if_pos (.inl rfl), htail]; rfl,
        linkChild_after h hnodup rfl ⟨rfl, by simpa using hchild⟩ (by simpa using hchild)⟩
    · exact ⟨[], a :: t, rfl, insertLabel_of_ne_zero ha,
        linkChild_front hchild (by simpa [hchild] using ha)⟩

/-! ### A label is linked out -/

/-- The label that comes before one of a chain. -/
theorem before?_spec (h : p.Links k (l :: ls)) (hls : IsLabels (l :: ls)) (hx : x ∈ ls)
    (hn : ls.length ≤ n) : ∃ pre post, l :: ls = pre ++ x :: post ∧
      p.before? k x n l = pre.getLast? ∧ pre ≠ [] := by
  induction ls generalizing l n with
  | nil => simp at hx
  | cons m ls ih =>
    rcases n with _ | n
    · simp at hn
    have hm : m ≠ 0 := fun h0 => hls.tail (by simp [h0])
    unfold before?
    rw [h.sibling_head, List.headD_cons]
    dsimp only
    by_cases hmx : m = x
    · subst hmx
      rw [if_pos rfl]
      exact ⟨[l], ls, rfl, rfl, by simp⟩
    · rw [if_neg hmx, if_neg hm]
      obtain ⟨pre, post, hsplit, hlast, hne⟩ := ih (h.of_cons hls) hls.of_cons
        ((List.mem_cons.mp hx).resolve_left (Ne.symm hmx)) (by simpa using hn)
      refine ⟨l :: pre, post, by rw [hsplit]; rfl, ?_, by simp⟩
      rw [hlast]
      obtain ⟨b, pre, rfl⟩ := List.exists_cons_of_ne_nil hne
      rw [List.getLast?_cons_cons]

/-- **A label is linked out by one write**, to the slot of the label before it or to the node. -/
theorem unlinkChild_eq {m : Nat} (h : p.Links k ls) (hls : IsLabels ls) (hx : x ∈ ls)
    (hchild : (p.slot m).child = ls.headD 0) : ∃ pre post, ls = pre ++ x :: post ∧
      p.unlinkChild m k x = match pre.getLast? with
        | none => p.setChild m (post.headD 0)
        | some a => p.setSibling (k ^^^ a.toNat) (post.headD 0) := by
  have hnext : ∀ pre post, ls = pre ++ x :: post →
      (p.slot (k ^^^ x.toNat)).sibling = post.headD 0 := by
    intro pre post hsplit
    rw [h x hx, (hls.of_split hsplit).2]
  rcases ls with _ | ⟨a, t⟩
  · simp at hx
  rw [List.headD_cons] at hchild
  unfold unlinkChild
  dsimp only
  by_cases hax : a = x
  · subst hax
    refine ⟨[], t, rfl, ?_⟩
    rw [if_pos hchild, hnext [] t rfl]
    rfl
  · obtain ⟨pre, post, hsplit, hlast, hne⟩ := before?_spec (n := maxChildren) h hls
      ((List.mem_cons.mp hx).resolve_left (Ne.symm hax))
      (by have := hls.length_le; simp only [List.length_cons] at this; omega)
    refine ⟨pre, post, hsplit, ?_⟩
    rw [hchild, if_neg hax, hlast, hnext pre post hsplit]
    cases hb : pre.getLast? with
    | none => exact absurd (List.getLast?_eq_none_iff.mp hb) hne
    | some b => rfl

end Pool

end DoubleArrayTrie
