import Mathlib.Data.List.Nodup
import DoubleArrayTrie.Proofs.Pool.Live

/-!
# The free lists of blocks

The free slots of a block make up a circular list, which is entered at the `head` of the block.

* `IsFreeList.erase`: what is left of the list when one of its slots is taken.
* `IsFreeList.insert`: the list with a slot that is given back.
* `IsFreeList.congr`: other blocks do not notice.
-/

namespace DoubleArrayTrie

namespace Pool

variable {p q : Pool} {b e : Nat} {l : List Nat}

/-- Slot `y` comes after slot `x` on a free list. -/
def FreeLink (p : Pool) (x y : Nat) : Prop :=
  (p.slot x).check = -(y : Int) ∧ (p.slot y).base = -(x : Int)

theorem FreeLink.nextFree_eq {x y : Nat} (h : p.FreeLink x y) : p.nextFree x = y := by
  unfold nextFree
  rw [h.1, Int.neg_neg, Int.toNat_natCast]

theorem FreeLink.prevFree_eq {x y : Nat} (h : p.FreeLink x y) : p.prevFree y = x := by
  unfold prevFree
  rw [h.2, Int.neg_neg, Int.toNat_natCast]

/-- The list holds the free slots of block `b` in the order of its free list. -/
structure IsFreeList (p : Pool) (b : Nat) (l : List Nat) : Prop where
  nodup : l.Nodup
  mem_iff : ∀ e, e ∈ l ↔ p.Free e ∧ blockOf e = b
  free_eq : (p.block b).free = l.length
  circular : Circular p.FreeLink l
  head_eq : ∀ h ∈ l.head?, (p.block b).head = h

/-- Each block in use has a free list. -/
def FreeLists (p : Pool) : Prop := ∀ b < p.blocksInUse, ∃ l, p.IsFreeList b l

namespace IsFreeList

theorem link_nextFree (h : p.IsFreeList b l) (he : e ∈ l) : p.FreeLink e (p.nextFree e) := by
  obtain ⟨y, -, hey⟩ := h.circular.exists_next he
  rwa [hey.nextFree_eq]

theorem link_prevFree (h : p.IsFreeList b l) (he : e ∈ l) : p.FreeLink (p.prevFree e) e := by
  obtain ⟨y, -, hye⟩ := h.circular.exists_prev he
  rwa [hye.prevFree_eq]

theorem nextFree_mem (h : p.IsFreeList b l) (he : e ∈ l) : p.nextFree e ∈ l := by
  obtain ⟨y, hy, hey⟩ := h.circular.exists_next he
  rw [hey.nextFree_eq]
  exact hy

theorem prevFree_mem (h : p.IsFreeList b l) (he : e ∈ l) : p.prevFree e ∈ l := by
  obtain ⟨y, hy, hye⟩ := h.circular.exists_prev he
  rw [hye.prevFree_eq]
  exact hy

theorem free (h : p.IsFreeList b l) (he : e ∈ l) : p.Free e := ((h.mem_iff e).mp he).1

/-- A block with free slots has one of them as its head. -/
theorem exists_head (h : p.IsFreeList b l) (hne : (p.block b).free ≠ 0) :
    (p.block b).head.toNat ∈ l ∧ (p.block b).head = ((p.block b).head.toNat : Int) := by
  rcases l with _ | ⟨a, t⟩
  · exact absurd h.free_eq (by simpa using hne)
  · rw [h.head_eq a rfl]
    simp

/-- A free list does not depend on anything but its slots, their number and the head. -/
theorem congr (h : p.IsFreeList b l) (hfree : ∀ e, blockOf e = b → (q.Free e ↔ p.Free e))
    (hslot : ∀ e ∈ l, (q.slot e).base = (p.slot e).base ∧ (q.slot e).check = (p.slot e).check)
    (hcount : (q.block b).free = (p.block b).free)
    (hhead : (q.block b).free ≠ 0 → (q.block b).head = (p.block b).head) : q.IsFreeList b l where
  nodup := h.nodup
  mem_iff e := by
    rw [h.mem_iff]
    exact and_congr_left fun he => (hfree e he).symm
  free_eq := hcount.trans h.free_eq
  circular := h.circular.imp fun x hx y hy hxy =>
    ⟨(hslot x hx).2.trans hxy.1, (hslot y hy).1.trans hxy.2⟩
  head_eq a ha := by
    have hne : (q.block b).free ≠ 0 := by
      rw [hcount, h.free_eq]
      intro h0
      have hnil := List.length_eq_zero_iff.mp (Int.natCast_eq_zero.mp h0)
      simp [hnil] at ha
    rw [hhead hne]
    exact h.head_eq a ha

/-- The list entered at another of its slots, which has become the head. -/
theorem rehead (h : p.IsFreeList b l) (he : e ∈ l) (hslot : q.slot = p.slot) (hsize : q.size = p.size)
    (hcount : (q.block b).free = (p.block b).free) (hhead : (q.block b).head = e) :
    ∃ l', q.IsFreeList b l' := by
  obtain ⟨u, t, rfl⟩ := List.append_of_mem he
  have hperm : (u ++ e :: t).Perm (e :: t ++ u) := List.perm_append_comm
  refine ⟨e :: t ++ u, hperm.nodup_iff.mp h.nodup, fun d => ?_, ?_, ?_, ?_⟩
  · rw [← hperm.mem_iff, h.mem_iff]
    unfold Free
    rw [hsize, hslot]
  · rw [hcount, h.free_eq, hperm.length_eq]
  · have := h.circular.rotate
    unfold FreeLink at this ⊢
    rwa [hslot]
  · intro a ha
    simp only [List.cons_append, List.head?_cons, Option.mem_def, Option.some.injEq] at ha
    rw [hhead, ha]

end IsFreeList

/-! ### A slot is taken -/

@[simp] theorem block_bridgeFree (p : Pool) (e d : Nat) : (p.bridgeFree e).block d = p.block d := rfl

@[simp] theorem blocks_bridgeFree (p : Pool) (e : Nat) : (p.bridgeFree e).blocks = p.blocks := rfl

@[simp] theorem size_bridgeFree (p : Pool) (e : Nat) : (p.bridgeFree e).size = p.size := rfl

@[simp] theorem rejects_bridgeFree (p : Pool) (e : Nat) :
    (p.bridgeFree e).rejects = p.rejects := rfl

@[simp] theorem head_bridgeFree (p : Pool) (e : Nat) (r : Ring) :
    (p.bridgeFree e).head r = p.head r := by
  simp [bridgeFree, setCheck, setBase]

theorem check_bridgeFree (hprev : p.prevFree e < p.capacity) (hnext : p.nextFree e < p.capacity)
    (j : Nat) : ((p.bridgeFree e).slot j).check =
      if j = p.prevFree e then -(p.nextFree e : Int) else (p.slot j).check := by
  unfold bridgeFree setBase setCheck
  rw [slot_modifySlot_of_lt (by simpa using hnext), slot_modifySlot_of_lt hprev,
    Function.update_apply, Function.update_apply, Function.update_apply]
  split_ifs <;> simp_all

theorem base_bridgeFree (hprev : p.prevFree e < p.capacity) (hnext : p.nextFree e < p.capacity)
    (j : Nat) : ((p.bridgeFree e).slot j).base =
      if j = p.nextFree e then -(p.prevFree e : Int) else (p.slot j).base := by
  unfold bridgeFree setBase setCheck
  rw [slot_modifySlot_of_lt (by simpa using hnext), slot_modifySlot_of_lt hprev,
    Function.update_apply, Function.update_apply, Function.update_apply]
  split_ifs <;> simp_all

theorem labels_bridgeFree (p : Pool) (e j : Nat) :
    ((p.bridgeFree e).slot j).sibling = (p.slot j).sibling ∧
      ((p.bridgeFree e).slot j).child = (p.slot j).child := by
  unfold bridgeFree setBase setCheck
  simp only [slot_modifySlot]
  split_ifs <;> simp

/-- Linking the neighbours of a free slot changes free slots only. -/
theorem slot_bridgeFree (p : Pool) (e : Nat) {j : Nat} (hprev : j ≠ p.prevFree e)
    (hnext : j ≠ p.nextFree e) : (p.bridgeFree e).slot j = p.slot j := by
  unfold bridgeFree setBase setCheck
  rw [slot_modifySlot, if_neg fun h => hnext h.1.symm, slot_modifySlot,
    if_neg fun h => hprev h.1.symm]

namespace IsFreeList

section

variable (h : p.IsFreeList b l) (he : e ∈ l) (hcap : p.size ≤ p.capacity)
  (hslot : ∀ j, j ≠ e → q.slot j = if (p.block b).free = 1 then p.slot j
    else (p.bridgeFree e).slot j)
include h he hcap hslot

/-- The slots of a free list stay free but the one that is taken. -/
theorem free_erase (hsize : q.size = p.size) (hused : 0 ≤ (q.slot e).check) (j : Nat) :
    q.Free j ↔ p.Free j ∧ j ≠ e := by
  have hp := h.free (h.prevFree_mem he)
  have hn := h.free (h.nextFree_mem he)
  have hcheck := check_bridgeFree (hp.2.1.trans_le hcap) (hn.2.1.trans_le hcap)
  by_cases hje : j = e
  · subst hje
    exact ⟨fun hfree => absurd hfree.2.2 (not_lt.mpr hused), fun hfree => absurd rfl hfree.2⟩
  unfold Free at hp hn ⊢
  rw [hsize, hslot j hje]
  split_ifs
  · simp [hje]
  · rw [hcheck]
    split_ifs with hjp
    · rw [hjp]
      simp only [hp, true_and]
      exact ⟨fun _ => hjp ▸ hje, fun _ => by omega⟩
    · simp [hje]

/-- The neighbours of the slot that is taken are linked to each other, unless it was the only one. -/
theorem circular_erase : Circular q.FreeLink (l.erase e) := by
  have hel : e ∉ l.erase e := h.nodup.not_mem_erase
  have hprev := (h.free (h.prevFree_mem he)).2.1.trans_le hcap
  have hnext := (h.free (h.nextFree_mem he)).2.1.trans_le hcap
  have hcheck := check_bridgeFree hprev hnext
  have hbase := base_bridgeFree hprev hnext
  by_cases hone : (p.block b).free = 1
  · have hlen : l.length = 1 := by have := h.free_eq; omega
    obtain ⟨a, rfl⟩ := List.length_eq_one_iff.mp hlen
    obtain rfl : e = a := by simpa using he
    simpa using Circular.nil
  refine h.circular.erase h.nodup he (fun x hx y hy hxy => ⟨?_, ?_⟩)
    fun x hx y hy hxe hey => ⟨?_, ?_⟩
  · rw [hslot x (fun hxe => hel (hxe ▸ hx)), if_neg hone, hcheck, if_neg, hxy.1]
    rintro rfl
    have hye : y = e := hxy.nextFree_eq.symm.trans (h.link_prevFree he).nextFree_eq
    exact hel (hye ▸ hy)
  · rw [hslot y (fun hye => hel (hye ▸ hy)), if_neg hone, hbase, if_neg, hxy.2]
    rintro rfl
    have hxe : x = e := hxy.prevFree_eq.symm.trans (h.link_nextFree he).prevFree_eq
    exact hel (hxe ▸ hx)
  · rw [hslot x (fun h => hel (h ▸ hx)), if_neg hone, hcheck, if_pos hxe.prevFree_eq.symm,
      hey.nextFree_eq]
  · rw [hslot y (fun h => hel (h ▸ hy)), if_neg hone, hbase, if_pos hey.nextFree_eq.symm,
      hxe.prevFree_eq]

end

/-- The head of what is left: the slot after the one that is taken, if that was the head. -/
theorem head_erase (h : p.IsFreeList b l) (he : e ∈ l) {a : Nat} (ha : a ∈ (l.erase e).head?) :
    (p.block b).free ≠ 1 ∧
      (if (p.block b).head = e then (p.nextFree e : Int) else (p.block b).head) = a := by
  rcases l with _ | ⟨d, t⟩
  · simp at he
  have hd : (p.block b).head = d := h.head_eq d rfl
  have hone : (p.block b).free ≠ 1 := by
    rw [h.free_eq]
    intro h1
    obtain rfl : t = [] := List.length_eq_zero_iff.mp (by rw [List.length_cons] at h1; omega)
    obtain rfl : e = d := by simpa using he
    simp at ha
  refine ⟨hone, ?_⟩
  rw [hd]
  by_cases hde : d = e
  · subst hde
    rw [List.erase_cons_head] at ha
    obtain ⟨w, rfl⟩ : ∃ w, t = a :: w := by
      rcases t with _ | ⟨z, w⟩
      · simp at ha
      · exact ⟨w, by simpa using ha⟩
    have hda : p.FreeLink d a := (List.isChain_cons_cons.mp h.circular).1
    rw [if_pos rfl, hda.nextFree_eq]
  · rw [List.erase_cons_tail (by simpa using hde)] at ha
    obtain rfl : d = a := by simpa using ha
    rw [if_neg (by omega)]

/-- **What is left of a free list when slot `e` is taken.** If it was the only one, no link is
written, else its neighbours are linked to each other, and the one after it becomes the head if it
was. -/
theorem erase (h : p.IsFreeList b l) (he : e ∈ l) (hcap : p.size ≤ p.capacity)
    (hsize : q.size = p.size)
    (hslot : ∀ j, j ≠ e → q.slot j = if (p.block b).free = 1 then p.slot j
      else (p.bridgeFree e).slot j)
    (hused : 0 ≤ (q.slot e).check) (hcount : (q.block b).free = (p.block b).free - 1)
    (hhead : (p.block b).free ≠ 1 → (q.block b).head = if (p.block b).head = e
      then (p.nextFree e : Int) else (p.block b).head) : q.IsFreeList b (l.erase e) where
  nodup := h.nodup.erase e
  mem_iff j := by
    rw [h.nodup.mem_erase_iff, h.mem_iff, h.free_erase he hcap hslot hsize hused]
    tauto
  free_eq := by
    have hlen := List.length_erase_of_mem he
    have hpos := List.length_pos_of_mem he
    rw [hcount, h.free_eq, hlen]
    omega
  circular := h.circular_erase he hcap hslot
  head_eq a ha := by
    obtain ⟨hone, hfirst⟩ := h.head_erase he ha
    rw [hhead hone, hfirst]

end IsFreeList

/-! ### A slot is given back -/

theorem check_spliceFree {h : Nat} (he : e < p.capacity) (hh : h < p.capacity) (hhe : h ≠ e)
    (hnext : p.nextFree h < p.capacity) (j : Nat) : ((p.spliceFree e h).slot j).check =
      if j = h then -(e : Int) else if j = e then -(p.nextFree h : Int) else (p.slot j).check := by
  unfold spliceFree setBase setCheck setNode
  rw [slot_modifySlot_of_lt (by simpa using hnext), slot_modifySlot_of_lt (by simpa using hh),
    slot_modifySlot_of_lt he]
  simp only [Function.update_apply]
  grind

theorem base_spliceFree {h : Nat} (he : e < p.capacity) (hh : h < p.capacity)
    (hnext : p.nextFree h < p.capacity) (j : Nat) : ((p.spliceFree e h).slot j).base =
      if j = p.nextFree h then -(e : Int) else if j = e then -(h : Int) else (p.slot j).base := by
  unfold spliceFree setBase setCheck setNode
  rw [slot_modifySlot_of_lt (by simpa using hnext), slot_modifySlot_of_lt (by simpa using hh),
    slot_modifySlot_of_lt he]
  simp only [Function.update_apply]
  grind

theorem labels_spliceFree (p : Pool) (e h j : Nat) :
    ((p.spliceFree e h).slot j).sibling = (p.slot j).sibling ∧
      ((p.spliceFree e h).slot j).child = (p.slot j).child := by
  unfold spliceFree setBase setCheck setNode
  simp only [slot_modifySlot]
  split_ifs <;> simp

/-- Linking a slot in changes no other slots than free ones. -/
theorem slot_spliceFree (p : Pool) (e h : Nat) {j : Nat} (hje : j ≠ e) (hjh : j ≠ h)
    (hnext : j ≠ p.nextFree h) : (p.spliceFree e h).slot j = p.slot j := by
  unfold spliceFree setBase setCheck setNode
  rw [slot_modifySlot, if_neg fun h => hnext h.1.symm, slot_modifySlot,
    if_neg fun h => hjh h.1.symm, slot_modifySlot, if_neg fun h => hje h.1.symm]

namespace IsFreeList

section

variable (hpos : 0 < e) (hlt : e < p.size) (hnot : ¬ p.Free e) (heb : blockOf e = b)
  (hcap : p.size ≤ p.capacity) (hsize : q.size = p.size)
include hpos hlt heb hcap hsize

/-- A slot is given back to a block without free slots: it is linked to itself. -/
theorem insert_nil (h : p.IsFreeList b [])
    (hslot : ∀ j, (q.slot j).base = ((p.setNode e (-(e : Int)) (-(e : Int))).slot j).base ∧
      (q.slot j).check = ((p.setNode e (-(e : Int)) (-(e : Int))).slot j).check)
    (hcount : (q.block b).free = 1) (hhead : (q.block b).head = e) : q.IsFreeList b [e] := by
  have hnode : (p.setNode e (-(e : Int)) (-(e : Int))).slot =
      Function.update p.slot e { p.slot e with base := -(e : Int), check := -(e : Int) } :=
    slot_modifySlot_of_lt (by omega) _
  rw [hnode] at hslot
  refine ⟨List.nodup_singleton e, fun j => ?_, by simp [hcount],
    Circular.singleton_iff.mpr ⟨?_, ?_⟩, by simp [hhead]⟩
  · have hnil := h.mem_iff j
    simp only [List.not_mem_nil, false_iff, not_and] at hnil
    rw [List.mem_singleton]
    unfold Free at hnil ⊢
    rw [hsize, (hslot j).2, Function.update_apply]
    by_cases hj : j = e
    · subst hj
      simp [hpos, hlt, heb]
    · simp only [hj, if_false, false_iff, not_and]
      exact hnil
  · rw [(hslot e).2, Function.update_self]
  · rw [(hslot e).1, Function.update_self]

include hnot in
/-- A slot is given back to a block with free slots: it comes after the head. -/
theorem insert_cons {a : Nat} {t : List Nat} (h : p.IsFreeList b (a :: t))
    (hslot : ∀ j, (q.slot j).base = ((p.spliceFree e a).slot j).base ∧
      (q.slot j).check = ((p.spliceFree e a).slot j).check)
    (hcount : (q.block b).free = (p.block b).free + 1) (hhead : (q.block b).head = a) :
    q.IsFreeList b (a :: e :: t) := by
  have hel : e ∉ a :: t := fun he => hnot (h.free he)
  have hamem : a ∈ a :: t := List.mem_cons_self
  have hae : a ≠ e := fun hae => hel (hae ▸ hamem)
  have hat : a ∉ t := (List.nodup_cons.mp h.nodup).1
  have hnext := h.nextFree_mem hamem
  have hnexte : p.nextFree a ≠ e := fun hne => hel (hne ▸ hnext)
  have hacap : a < p.capacity := (h.free hamem).2.1.trans_le hcap
  have hnextcap : p.nextFree a < p.capacity := (h.free hnext).2.1.trans_le hcap
  have hcheck := check_spliceFree (hlt.trans_le hcap) hacap hae hnextcap
  have hbase := base_spliceFree (hlt.trans_le hcap) hacap hnextcap
  refine ⟨?_, fun j => ?_, ?_, ?_, by simp [hhead]⟩
  · have hnodup := h.nodup
    simp only [List.nodup_cons, List.mem_cons] at hnodup hel ⊢
    tauto
  · have hperm : j ∈ a :: e :: t ↔ j = e ∨ j ∈ a :: t := by
      simp only [List.mem_cons]
      tauto
    rw [hperm, h.mem_iff]
    unfold Free
    rw [hsize, (hslot j).2, hcheck]
    by_cases hj : j = e
    · subst hj
      have hpos' := (h.free hnext).1
      simpa [hpos, hlt, heb, Ne.symm hae] using hpos'
    · by_cases hja : j = a
      · have hfa := (h.mem_iff a).mp hamem
        unfold Free at hfa
        subst hja
        simp [hj, hfa, hpos]
      · simp [hj, hja]
  · rw [hcount, h.free_eq]
    simp
  · refine h.circular.insert (fun x hx y hy hxy => ⟨?_, ?_⟩) ⟨?_, ?_⟩ fun y hy hay => ⟨?_, ?_⟩
    · have hxa : x ≠ a := fun hxa => hat (hxa ▸ hx)
      have hxe : x ≠ e := fun hxe => hel (List.mem_cons_of_mem _ (hxe ▸ hx))
      rw [(hslot x).2, hcheck, if_neg hxa, if_neg hxe, hxy.1]
    · have hya : y ≠ p.nextFree a := by
        rintro rfl
        have hxa : x = a := hxy.prevFree_eq.symm.trans (h.link_nextFree hamem).prevFree_eq
        exact hat (hxa ▸ hx)
      have hye : y ≠ e := fun hye => hel (hye ▸ hy)
      rw [(hslot y).1, hbase, if_neg hya, if_neg hye, hxy.2]
    · rw [(hslot a).2, hcheck, if_pos rfl]
    · rw [(hslot e).1, hbase, if_neg (Ne.symm hnexte), if_pos rfl]
    · rw [(hslot e).2, hcheck, if_neg (Ne.symm hae), if_pos rfl, hay.nextFree_eq]
    · rw [(hslot y).1, hbase, if_pos hay.nextFree_eq.symm]

include hnot in
/-- **The free list with a slot `e` that is given back.** It is linked to itself if it is the only
one, and comes after the head otherwise. -/
theorem insert (h : p.IsFreeList b l)
    (hslot : ∀ j, (q.slot j).base = ((if (p.block b).free = 0 then p.setNode e (-(e : Int)) (-(e : Int))
        else p.spliceFree e (p.block b).head.toNat).slot j).base ∧
      (q.slot j).check = ((if (p.block b).free = 0 then p.setNode e (-(e : Int)) (-(e : Int))
        else p.spliceFree e (p.block b).head.toNat).slot j).check)
    (hcount : (q.block b).free = (p.block b).free + 1)
    (hhead : (q.block b).head = if (p.block b).free = 0 then (e : Int) else (p.block b).head) :
    q.IsFreeList b (l.take 1 ++ e :: l.drop 1) := by
  rcases l with _ | ⟨a, t⟩
  · have h0 : (p.block b).free = 0 := h.free_eq
    simp only [h0, if_true] at hslot hhead
    exact insert_nil hpos hlt heb hcap hsize h hslot (by rw [hcount, h0]; rfl) hhead
  · have hne : (p.block b).free ≠ 0 := by
      rw [h.free_eq, List.length_cons]
      omega
    have ha : (p.block b).head = a := h.head_eq a rfl
    simp only [hne, if_false, ha, Int.toNat_natCast] at hslot hhead
    exact insert_cons hpos hlt hnot heb hcap hsize h hslot hcount hhead

end

end IsFreeList

end Pool

end DoubleArrayTrie
