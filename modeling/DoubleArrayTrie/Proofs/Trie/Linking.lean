import DoubleArrayTrie.Proofs.Trie.Layout

/-!
# Chains of a drawing

A chain is spread over the record of a node, which names its first label, and the records of its
children, which name the labels after theirs. `Relinked` says that records have come to hold a chain
and are the same in everything else.

* `Draws.linkChild`: a new label is linked in where `insertLabel` puts it.
* `Draws.unlinkChild`: a label is linked out.
-/

namespace DoubleArrayTrie

/-- The records of node `q` and its children hold the chain; else they are what they were. -/
structure Relinked (data data' : Trail → Slot) (q : Trail) (ls : List UInt8) : Prop where
  base : ∀ v, (data' v).base = (data v).base
  check : ∀ v, (data' v).check = (data v).check
  child : (data' q).child = ls.headD 0
  child_of_ne : ∀ v, v ≠ q → (data' v).child = (data v).child
  sibling : ∀ l ∈ ls, (data' (sib q l)).sibling = nextLabel l ls
  sibling_of_ne : ∀ v, (∀ l, v ≠ sib q l) → (data' v).sibling = (data v).sibling

theorem sib_inj {q : Trail} {l m : UInt8} : sib q l = sib q m ↔ l = m := by
  constructor
  · unfold sib
    intro h
    split_ifs at h with hl hm
    · rw [hl.2, hm.2]
    · simpa using h
  · rintro rfl
    rfl

/-! ### Records with another label -/

section

variable (data : Trail → Slot) (t v : Trail) (l : UInt8)

/-- The records with another next sibling of a node. -/
def nameSibling : Trail → Slot := Function.update data t { data t with sibling := l }

/-- The records with another first child of a node. -/
def nameChild : Trail → Slot := Function.update data t { data t with child := l }

theorem sibling_nameSibling :
    (nameSibling data t l v).sibling = if v = t then l else (data v).sibling := by
  unfold nameSibling
  rw [Function.update_apply]
  split_ifs <;> rfl

theorem child_nameChild : (nameChild data t l v).child = if v = t then l else (data v).child := by
  unfold nameChild
  rw [Function.update_apply]
  split_ifs <;> rfl

@[simp] theorem base_nameSibling : (nameSibling data t l v).base = (data v).base := by
  unfold nameSibling
  rw [Function.update_apply]
  split_ifs with h
  · rw [h]
  · rfl

@[simp] theorem check_nameSibling : (nameSibling data t l v).check = (data v).check := by
  unfold nameSibling
  rw [Function.update_apply]
  split_ifs with h
  · rw [h]
  · rfl

@[simp] theorem child_nameSibling : (nameSibling data t l v).child = (data v).child := by
  unfold nameSibling
  rw [Function.update_apply]
  split_ifs with h
  · rw [h]
  · rfl

@[simp] theorem base_nameChild : (nameChild data t l v).base = (data v).base := by
  unfold nameChild
  rw [Function.update_apply]
  split_ifs with h
  · rw [h]
  · rfl

@[simp] theorem check_nameChild : (nameChild data t l v).check = (data v).check := by
  unfold nameChild
  rw [Function.update_apply]
  split_ifs with h
  · rw [h]
  · rfl

@[simp] theorem sibling_nameChild : (nameChild data t l v).sibling = (data v).sibling := by
  unfold nameChild
  rw [Function.update_apply]
  split_ifs with h
  · rw [h]
  · rfl

end

namespace Pool

variable {c : Config} {p : Pool} {M : Trail → Prop} {loc : Trail → Nat} {data : Trail → Slot}
  {q : Trail} {ls pre post : List UInt8} {x a : UInt8} {k : Nat}

namespace Draws

/-- The slots of node `q` and its children hold a chain at offset `k`. -/
structure Chain (M : Trail → Prop) (loc : Trail → Nat) (data : Trail → Slot) (q : Trail) (k : Nat)
    (ls : List UInt8) : Prop where
  labels : IsLabels ls
  mem : M q
  mems : ∀ l ∈ ls, M (sib q l)
  locs : ∀ l ∈ ls, loc (sib q l) = k ^^^ l.toNat
  child : (data q).child = ls.headD 0
  sibling : ∀ l ∈ ls, (data (sib q l)).sibling = nextLabel l ls

theorem Chain.links (hc : Chain M loc data q k ls) (h : p.Draws c M loc data) : p.Links k ls := by
  intro l hl
  rw [← hc.locs l hl, h.slot_eq (hc.mems l hl), hc.sibling l hl]

theorem Chain.child_eq (hc : Chain M loc data q k ls) (h : p.Draws c M loc data) :
    (p.slot (loc q)).child = ls.headD 0 := by
  rw [h.slot_eq hc.mem, hc.child]

/-- **A new label is linked into a chain.** -/
theorem linkChild (h : p.Draws c M loc data) (hc : Chain M loc data q k ls) (hx : x ∉ ls)
    (hroot : q ≠ [] ∨ x ≠ 0) (hxM : M (x :: q)) (hxloc : loc (x :: q) = k ^^^ x.toNat)
    (o : Bool) : ∃ data', (p.linkChild o (loc q) k x (!ls.isEmpty)).Draws c M loc data' ∧
      Relinked data data' q (insertLabel o x ls) := by
  obtain ⟨pre, post, hsplit, hinsert, heq⟩ := linkChild_eq (o := o) (hc.links h) hc.labels hx
    (hc.child_eq h)
  have hsibx : sib q x = x :: q := Outline.sib_eq_cons hroot
  have hxq : q ≠ x :: q := by simp
  have hnd : (pre ++ x :: post).Nodup := by
    rw [← hinsert]
    exact (hc.labels.insertLabel hx o).nodup
  have hnext := nextLabel_insert hnd
  have hmem : ∀ l ∈ pre ++ x :: post, l = x ∨ l ∈ ls := fun l hl => by
    rwa [← hinsert, mem_insertLabel] at hl
  rw [← hsplit] at hnext
  rw [hinsert, heq]
  unfold linkBetween
  rw [← hxloc]
  cases hlast : pre.getLast? with
  | none =>
    obtain rfl := List.getLast?_eq_none_iff.mp hlast
    refine ⟨nameSibling (nameChild data q x) (x :: q) (post.headD 0),
      (h.setChild hc.mem x).setSibling hxM _, ?_⟩
    refine ⟨by simp, by simp, ?_, fun v hv => ?_, fun l hl => ?_, fun v hv => ?_⟩
    · rw [child_nameSibling, child_nameChild, if_pos rfl]
      rfl
    · rw [child_nameSibling, child_nameChild, if_neg hv]
    · rw [sibling_nameSibling, sibling_nameChild, hnext, ← hsibx, hlast]
      simp only [sib_inj, reduceCtorEq, if_false]
      split_ifs with hlx
      · rfl
      · exact hc.sibling l ((hmem l hl).resolve_left hlx)
    · rw [sibling_nameSibling, sibling_nameChild, if_neg (hsibx ▸ hv x)]
  | some a =>
    have ha : a ∈ ls := by
      rw [hsplit]
      exact List.mem_append_left _ (List.mem_of_getLast? hlast)
    dsimp only
    rw [← hc.locs a ha]
    refine ⟨nameSibling (nameSibling data (sib q a) x) (x :: q) (post.headD 0),
      (h.setSibling (hc.mems a ha) x).setSibling hxM _, ?_⟩
    have hne : pre ≠ [] := by
      rintro rfl
      simp at hlast
    refine ⟨by simp, by simp, ?_, fun v _ => by simp, fun l hl => ?_, fun v hv => ?_⟩
    · rw [child_nameSibling, child_nameSibling, hc.child, hsplit]
      obtain ⟨b, t, rfl⟩ := List.exists_cons_of_ne_nil hne
      rfl
    · rw [sibling_nameSibling, sibling_nameSibling, hnext, ← hsibx, hlast]
      simp only [sib_inj, Option.some.injEq]
      split_ifs with hlx hla hal
      · rfl
      · rfl
      · exact absurd hla.symm hal
      · rename_i hal
        exact absurd hal.symm hla
      · exact hc.sibling l ((hmem l hl).resolve_left hlx)
    · rw [sibling_nameSibling, sibling_nameSibling, if_neg (hsibx ▸ hv x), if_neg (hv a)]

/-- **A label is linked out of a chain.** -/
theorem unlinkChild (h : p.Draws c M loc data) (hc : Chain M loc data q k ls) (hx : x ∈ ls) :
    ∃ data', (p.unlinkChild (loc q) k x).Draws c M loc data' ∧
      Relinked data data' q (ls.erase x) := by
  obtain ⟨pre, post, hsplit, heq⟩ := unlinkChild_eq (hc.links h) hc.labels hx (hc.child_eq h)
  have hnd := hc.labels.nodup
  rw [hsplit] at hnd
  have hxpre := (hc.labels.of_split hsplit).1
  have herase : ls.erase x = pre ++ post := by
    rw [hsplit, List.erase_append_right _ hxpre, List.erase_cons_head]
  have hnext := nextLabel_insert hnd
  have hmem : ∀ l ∈ pre ++ post, l ∈ ls ∧ l ≠ x := fun l hl => by
    rw [← herase] at hl
    exact ⟨List.mem_of_mem_erase hl, ((List.Nodup.mem_erase_iff hc.labels.nodup).mp hl).1⟩
  have hold : ∀ l ∈ pre ++ post, pre.getLast? ≠ some l →
      (data (sib q l)).sibling = nextLabel l (pre ++ post) := by
    intro l hl hlast
    rw [hc.sibling l (hmem l hl).1, hsplit, hnext, if_neg (hmem l hl).2, if_neg hlast]
  rw [herase, heq]
  cases hlast : pre.getLast? with
  | none =>
    obtain rfl := List.getLast?_eq_none_iff.mp hlast
    refine ⟨nameChild data q (post.headD 0), h.setChild hc.mem _, by simp, by simp, ?_,
      fun v hv => ?_, fun l hl => ?_, fun v _ => by simp⟩
    · rw [child_nameChild, if_pos rfl]
      rfl
    · rw [child_nameChild, if_neg hv]
    · rw [sibling_nameChild]
      exact hold l hl (by simp)
  | some a =>
    have ha : a ∈ pre ++ post := List.mem_append_left _ (List.mem_of_getLast? hlast)
    dsimp only
    rw [← hc.locs a (hmem a ha).1]
    refine ⟨nameSibling data (sib q a) (post.headD 0), h.setSibling (hc.mems a (hmem a ha).1) _,
      by simp, by simp, ?_, fun v _ => by simp, fun l hl => ?_, fun v hv => ?_⟩
    · rw [child_nameSibling, hc.child, hsplit]
      obtain ⟨b, t, rfl⟩ := List.exists_cons_of_ne_nil (show pre ≠ [] by rintro rfl; simp at hlast)
      rfl
    · rw [sibling_nameSibling]
      simp only [sib_inj]
      split_ifs with hla
      · rw [hla, nextLabel_getLast (herase ▸ hc.labels.nodup.erase x) hlast]
      · exact hold l hl (by rw [hlast]; simpa using Ne.symm hla)
    · rw [sibling_nameSibling, if_neg (hv a)]

end Draws

end Pool

end DoubleArrayTrie
