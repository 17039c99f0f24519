import Mathlib.Data.List.Chain
import Mathlib.Data.List.Iterate

/-!
# Circular lists

The free list of a block and the rings of blocks are circular and linked in both directions. Such a
list is described by a list of numbers in which each one is related to the next and the last one to
the first; where a circular list is entered does not matter.

* `Circular.rotate`: a circular list may be entered anywhere.
* `Circular.remove`, `Circular.insert`: what has to be linked anew where an element leaves or joins.
* `Circular.iterate`, `Circular.iterate_eq`: following the links from the first element on visits the
  list, and comes back.
-/

namespace DoubleArrayTrie

/-- Each number is related to the one after it, and the last one to the first. -/
def Circular (R : Nat → Nat → Prop) (l : List Nat) : Prop := List.IsChain R (l ++ l.head?.toList)

namespace Circular

variable {R S : Nat → Nat → Prop}

theorem nil : Circular R [] := List.isChain_nil

theorem cons_iff {a : Nat} {l : List Nat} :
    Circular R (a :: l) ↔ List.IsChain R (a :: l ++ [a]) := Iff.rfl

theorem singleton_iff {a : Nat} : Circular R [a] ↔ R a a := by
  rw [cons_iff]
  exact List.isChain_pair

/-- **A circular list may be entered anywhere.** -/
theorem rotate {l₁ l₂ : List Nat} (h : Circular R (l₁ ++ l₂)) : Circular R (l₂ ++ l₁) := by
  rcases l₁ with _ | ⟨a, s⟩
  · simpa using h
  rcases l₂ with _ | ⟨b, t⟩
  · simpa using h
  have hsplit : List.IsChain R ((a :: s) ++ b :: (t ++ [a])) := by simpa [Circular] using h
  obtain ⟨hab, hba⟩ := List.isChain_split.mp hsplit
  have hjoin : List.IsChain R ((b :: t) ++ a :: (s ++ [b])) :=
    List.isChain_split.mpr ⟨by simpa using hba, by simpa using hab⟩
  simpa [Circular] using hjoin

theorem imp {l : List Nat} (h : Circular R l) (hRS : ∀ x ∈ l, ∀ y ∈ l, R x y → S x y) :
    Circular S l := by
  have hsub : ∀ x ∈ l ++ l.head?.toList, x ∈ l := by
    rcases l with _ | ⟨a, t⟩ <;> simp [or_comm]
  exact List.IsChain.imp_of_mem_imp (fun x y hx hy => hRS x (hsub x hx) y (hsub y hy)) h

/-- The element after one of the list is in the list. -/
theorem exists_next {l : List Nat} (h : Circular R l) {x : Nat} (hx : x ∈ l) : ∃ y ∈ l, R x y := by
  obtain ⟨s, t, rfl⟩ := List.append_of_mem hx
  have h' : List.IsChain R (x :: (t ++ s) ++ [x]) := h.rotate
  rcases hts : t ++ s with _ | ⟨y, u⟩
  · rw [hts] at h'
    exact ⟨x, hx, h'.rel_head? rfl⟩
  · rw [hts] at h'
    have hy : y ∈ t ++ s := by simp [hts]
    refine ⟨y, ?_, h'.rel_head? rfl⟩
    simp only [List.mem_append, List.mem_cons] at hy ⊢
    tauto

/-- The element before one of the list is in the list. -/
theorem exists_prev {l : List Nat} (h : Circular R l) {x : Nat} (hx : x ∈ l) : ∃ y ∈ l, R y x := by
  obtain ⟨s, t, rfl⟩ := List.append_of_mem hx
  have h' : List.IsChain R ((x :: (t ++ s)) ++ [x]) := h.rotate
  have hne : x :: (t ++ s) ≠ [] := by simp
  have hlast := List.IsChain.rel_getLast_head_of_append h' hne (by simp)
  have hmem := List.getLast_mem hne
  refine ⟨_, ?_, hlast⟩
  simp only [List.mem_cons, List.mem_append] at hmem ⊢
  tauto

/-- **An element leaves**: the ones around it have to be linked to each other. -/
theorem remove {e : Nat} {t : List Nat} (h : Circular R (e :: t))
    (hkeep : ∀ x ∈ t, ∀ y ∈ t, R x y → S x y)
    (hjoin : ∀ x ∈ t, ∀ y ∈ t, R x e → R e y → S x y) : Circular S t := by
  rcases t with _ | ⟨b, m⟩
  · exact nil
  have hchain : List.IsChain R (e :: b :: (m ++ [e])) := h
  obtain ⟨heb, htail⟩ := List.isChain_cons_cons.mp hchain
  obtain ⟨hbm, -, hlast⟩ := List.isChain_append.mp (List.cons_append ▸ htail)
  refine List.isChain_append.mpr ⟨List.IsChain.imp_of_mem_imp
    (fun x y hx hy => hkeep x hx y hy) hbm, List.isChain_singleton _, ?_⟩
  intro x hx y hy
  simp only [List.head?_cons, Option.toList_some, Option.mem_def, Option.some.injEq] at hy
  subst hy
  exact hjoin x (List.mem_of_getLast? hx) b (by simp) (hlast x hx e rfl) heb

/-- An element leaves a circular list, wherever it is entered. -/
theorem erase {e : Nat} {l : List Nat} (h : Circular R l) (hnd : l.Nodup) (he : e ∈ l)
    (hkeep : ∀ x ∈ l.erase e, ∀ y ∈ l.erase e, R x y → S x y)
    (hjoin : ∀ x ∈ l.erase e, ∀ y ∈ l.erase e, R x e → R e y → S x y) :
    Circular S (l.erase e) := by
  obtain ⟨u, t, rfl⟩ := List.append_of_mem he
  have hperm : (u ++ e :: t).Perm (e :: (t ++ u)) := List.perm_append_comm
  have heu : e ∉ u := fun hm =>
    (List.nodup_cons.mp (hperm.nodup_iff.mp hnd)).1 (List.mem_append_right _ hm)
  rw [List.erase_append_right _ heu, List.erase_cons_head] at hkeep hjoin ⊢
  have hcomm : ∀ x, x ∈ t ++ u → x ∈ u ++ t := fun x hx => by simpa [or_comm] using hx
  have hrot : Circular R (e :: (t ++ u)) := h.rotate
  exact (hrot.remove (fun x hx y hy => hkeep x (hcomm x hx) y (hcomm y hy))
    (fun x hx y hy => hjoin x (hcomm x hx) y (hcomm y hy))).rotate

/-- An element that is related to itself is the only one. -/
theorem eq_singleton {a : Nat} {l : List Nat} (h : Circular R l) (hnd : l.Nodup) (ha : a ∈ l)
    (hself : ∀ y, R a y → y = a) : l = [a] := by
  obtain ⟨u, t, rfl⟩ := List.append_of_mem ha
  have hperm : (u ++ a :: t).Perm (a :: (t ++ u)) := List.perm_append_comm
  have hnot : a ∉ t ++ u := (List.nodup_cons.mp (hperm.nodup_iff.mp hnd)).1
  have hrot : Circular R (a :: (t ++ u)) := h.rotate
  rcases htu : t ++ u with _ | ⟨z, w⟩
  · obtain ⟨rfl, rfl⟩ := List.append_eq_nil_iff.mp htu
    rfl
  · rw [htu] at hrot hnot
    have hz := hself z (List.isChain_cons_cons.mp hrot).1
    exact absurd (hz ▸ List.mem_cons_self) hnot

/-- **An element joins** after the first one: it has to be linked to the ones around it. -/
theorem insert {a e : Nat} {t : List Nat} (h : Circular R (a :: t))
    (hkeep : ∀ x ∈ t, ∀ y ∈ a :: t, R x y → S x y) (hbefore : S a e)
    (hafter : ∀ y ∈ a :: t, R a y → S e y) : Circular S (a :: e :: t) := by
  rcases t with _ | ⟨b, m⟩
  · have haa := singleton_iff.mp h
    exact cons_iff.mpr (by simpa using ⟨hbefore, hafter a (by simp) haa⟩)
  have hchain : List.IsChain R (a :: b :: (m ++ [a])) := h
  obtain ⟨hab, htail⟩ := List.isChain_cons_cons.mp hchain
  obtain ⟨hbm, -, hlast⟩ := List.isChain_append.mp (List.cons_append ▸ htail)
  have htail' : List.IsChain S (b :: m ++ [a]) := by
    refine List.isChain_append.mpr ⟨List.IsChain.imp_of_mem_imp
      (fun x y hx hy => hkeep x hx y (List.mem_cons_of_mem _ hy)) hbm,
      List.isChain_singleton _, fun x hx y hy => ?_⟩
    simp only [List.head?_cons, Option.mem_def, Option.some.injEq] at hy
    subst hy
    exact hkeep x (List.mem_of_getLast? hx) a (by simp) (hlast x hx a rfl)
  exact cons_iff.mpr (by simpa using ⟨hbefore, hafter b (by simp) hab, htail'⟩)

end Circular

theorem iterate_of_isChain {R : Nat → Nat → Prop} {f : Nat → Nat} (hf : ∀ x y, R x y → f x = y)
    {t : List Nat} {a : Nat} (h : List.IsChain R (a :: t)) :
    List.iterate f a (t.length + 1) = a :: t := by
  induction t generalizing a with
  | nil => rfl
  | cons b m ih =>
    obtain ⟨hR, hbm⟩ := List.isChain_cons_cons.mp h
    have hfa := hf a b hR
    simpa [List.iterate, hfa] using ih hbm

namespace Circular

variable {R : Nat → Nat → Prop} {f : Nat → Nat} {a : Nat} {t : List Nat}

/-- **Following the links from the first element on visits the list.** -/
theorem iterate (hf : ∀ x y, R x y → f x = y) (h : Circular R (a :: t)) :
    List.iterate f a (t.length + 1) = a :: t :=
  iterate_of_isChain hf (List.isChain_append.mp (cons_iff.mp h)).1

/-- **And it comes back.** -/
theorem iterate_eq (hf : ∀ x y, R x y → f x = y) (h : Circular R (a :: t)) :
    f^[t.length + 1] a = a := by
  have hround : List.iterate f a ((t ++ [a]).length + 1) = a :: (t ++ [a]) :=
    iterate_of_isChain hf (cons_iff.mp h)
  have hlast := List.getElem?_iterate f a ((t ++ [a]).length + 1) (t.length + 1) (by simp)
  rw [hround] at hlast
  simpa using hlast.symm

end Circular

end DoubleArrayTrie
