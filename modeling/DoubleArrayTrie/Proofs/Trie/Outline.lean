import Mathlib.Logic.Function.Basic
import DoubleArrayTrie.Trie.Insert
import DoubleArrayTrie.Proofs.Trie.Chains
import DoubleArrayTrie.Proofs.Trie.Drawing

/-!
# Outlines of tries

An outline is a trie without slots: the labels of the children of each node, in the order of their
chain, and the words of the leaves. Together with an offset for each node it says what all slots
hold (`Outline.slot`), and where (`locate`).

* `Outline.Sound`: what is true of the outline of a trie at all times.
* `Outline.graft`: an outline with one more child, which is `Sound` if the outline was.
-/

namespace DoubleArrayTrie

/-- The labels of the children of each node, and the words of the leaves. -/
structure Outline where
  kids : Trail → List UInt8
  word : Trail → Int

/-- The slot of a node, where `off` says at which offset the children of a node are. -/
def locate (off : Trail → Nat) : Trail → Nat
  | [] => 0
  | l :: q => off q ^^^ l.toNat

theorem locate_cons (off : Trail → Nat) (l : UInt8) (q : Trail) :
    locate off (l :: q) = off q ^^^ l.toNat := rfl

/-- The node that a label stands for in the chain of node `q`: the chain of the root starts with the
label `0`, which stands for the root itself. -/
def sib (q : Trail) (l : UInt8) : Trail := if q = [] ∧ l = 0 then [] else l :: q

namespace Outline

variable {c : Config} {T : Outline} {off : Trail → Nat} {loc : Trail → Nat} {t q : Trail}
  {l x : UInt8} {k : Nat}

/-- The nodes of an outline. -/
def Mem (T : Outline) : Trail → Prop
  | [] => True
  | l :: q => T.Mem q ∧ l ∈ T.kids q

theorem mem_of_suffix {u : Trail} (hu : T.Mem u) (h : t <:+ u) : T.Mem t := by
  induction u with
  | nil => rwa [List.suffix_nil.mp h]
  | cons l u ih =>
    rcases List.suffix_cons_iff.mp h with rfl | h
    · exact hu
    · exact ih hu.1 h

/-- The chain of a node. -/
def chain (T : Outline) (q : Trail) : List UInt8 := if q = [] then 0 :: T.kids [] else T.kids q

/-- What the slot of a node holds, where `off` says at which offset the children of a node are and
`loc` where a node is. -/
def slot (c : Config) (T : Outline) (off loc : Trail → Nat) : Trail → Slot
  | [] => ⟨c.encoding.ofOffset (off []), -1, (T.kids []).headD 0, 0⟩
  | l :: q =>
      ⟨if T.kids (l :: q) = [] then T.word (l :: q) else c.encoding.ofOffset (off (l :: q)), loc q,
        nextLabel l (T.kids q), (T.kids (l :: q)).headD 0⟩

/-- What is true of the outline of a trie. -/
structure Sound (c : Config) (T : Outline) : Prop where
  labels : ∀ q, IsLabels (T.kids q)
  /-- There is no empty key. -/
  root : 0 ∉ T.kids []
  terminal : ∀ q, T.kids (0 :: q) = []
  outside : ∀ q, ¬ T.Mem q → T.kids q = []
  ordered : c.ordered = true → ∀ q, (T.kids q).Pairwise (· < ·)
  /-- The word of a leaf that is no terminal does not say where children are. -/
  leaf : ∀ l q, l ≠ 0 → T.Mem (l :: q) → T.kids (l :: q) = [] →
    c.encoding.offset? (T.word (l :: q)) = none

/-! ### Chains -/

theorem chain_nil (T : Outline) : T.chain [] = 0 :: T.kids [] := if_pos rfl

theorem chain_cons (T : Outline) (l : UInt8) (q : Trail) : T.chain (l :: q) = T.kids (l :: q) :=
  if_neg (by simp)

theorem mem_chain_of_mem (h : l ∈ T.kids q) : l ∈ T.chain q := by
  unfold chain
  split_ifs with hq
  · rw [← hq]
    exact List.mem_cons_of_mem _ h
  · exact h

theorem mem_kids_of_mem_chain (h : l ∈ T.chain q) (hl : sib q l ≠ []) : l ∈ T.kids q := by
  unfold chain at h
  split_ifs at h with hq
  · subst hq
    refine (List.mem_cons.mp h).resolve_left fun h0 => hl ?_
    unfold sib
    rw [if_pos ⟨rfl, h0⟩]
  · exact h

theorem sib_eq_cons (h : q ≠ [] ∨ l ≠ 0) : sib q l = l :: q :=
  if_neg fun hql => h.elim (fun hq => hq hql.1) fun hl => hl hql.2

theorem Sound.sib_eq_cons (hT : T.Sound c) (h : l ∈ T.kids q) : sib q l = l :: q := by
  refine Outline.sib_eq_cons ?_
  by_cases hq : q = []
  · subst hq
    refine .inr ?_
    rintro rfl
    exact hT.root h
  · exact .inl hq

theorem Sound.isLabels_chain (hT : T.Sound c) (q : Trail) : IsLabels (T.chain q) := by
  unfold chain
  split_ifs
  · exact ⟨List.nodup_cons.mpr ⟨hT.root, (hT.labels []).nodup⟩, hT.root⟩
  · exact hT.labels q

theorem locate_sib (hoff : off [] = 0) (q : Trail) (l : UInt8) :
    locate off (sib q l) = off q ^^^ l.toNat := by
  unfold sib
  split_ifs with h
  · rw [h.1, h.2, hoff]
    rfl
  · rfl

theorem slot_child (q : Trail) : (T.slot c off loc q).child = (T.chain q).headD 0 := by
  rcases q with _ | ⟨l, q⟩
  · rw [chain_nil]
    rfl
  · rw [chain_cons]
    rfl

theorem slot_sibling (q : Trail) (l : UInt8) :
    (T.slot c off loc (sib q l)).sibling = nextLabel l (T.chain q) := by
  unfold sib
  split_ifs with hql
  · rw [hql.1, hql.2, chain_nil, nextLabel_cons_self]
    rfl
  · unfold chain
    split_ifs with hq
    · subst hq
      have hl : l ≠ 0 := fun hl => hql ⟨rfl, hl⟩
      rw [nextLabel_cons_of_ne (Ne.symm hl)]
      rfl
    · rfl

theorem mem_sib (h : l ∈ T.chain q) (hq : T.Mem q) : T.Mem (sib q l) := by
  unfold sib
  split_ifs with hql
  · trivial
  · exact ⟨hq, mem_kids_of_mem_chain h (by rw [sib, if_neg hql]; simp)⟩

theorem mem_chain_of_mem_sib (h : T.Mem (sib q l)) : l ∈ T.chain q := by
  unfold sib at h
  split_ifs at h with hql
  · rw [hql.1, hql.2, chain_nil]
    exact List.mem_cons_self
  · exact mem_chain_of_mem h.2

/-- No node has this trail, since terminals have no children. -/
def spare : Trail := [0, 0]

theorem Sound.not_mem_spare (hT : T.Sound c) : ¬ T.Mem spare := fun h => hT.root h.1.2

/-! ### One more child -/

/-- The outline with a new child of node `q`. -/
def graft (c : Config) (T : Outline) (q : Trail) (x : UInt8) : Outline where
  kids := Function.update T.kids q (insertLabel c.ordered x (T.kids q))
  word := Function.update T.word (x :: q) (c.encoding.fresh x)

theorem kids_graft_self (c : Config) (T : Outline) (q : Trail) (x : UInt8) :
    (T.graft c q x).kids q = insertLabel c.ordered x (T.kids q) := Function.update_self ..

theorem kids_graft_of_ne (x : UInt8) (h : t ≠ q) : (T.graft c q x).kids t = T.kids t :=
  Function.update_of_ne h ..

theorem chain_graft_self (c : Config) (T : Outline) (q : Trail) (x : UInt8) :
    (T.graft c q x).chain q = insertLabel c.ordered x (T.chain q) := by
  unfold chain
  split_ifs with hq
  · subst hq
    rw [kids_graft_self]
    conv => rhs; unfold insertLabel
    rw [if_pos (.inl rfl)]
  · exact kids_graft_self c T q x

/-- The nodes of an outline with a new child. -/
theorem Sound.mem_graft (hT : T.Sound c) (hq : T.Mem q) (hx : x ∉ T.kids q) (t : Trail) :
    (T.graft c q x).Mem t ↔ T.Mem t ∨ t = x :: q := by
  induction t with
  | nil => simp [Mem]
  | cons l u ih =>
    unfold Mem
    rw [ih]
    by_cases huq : u = q
    · subst huq
      rw [kids_graft_self, mem_insertLabel]
      simp only [hq, true_or, true_and, List.cons.injEq, and_true]
      exact or_comm
    · rw [kids_graft_of_ne x huq]
      have hne : ¬ (l :: u = x :: q) := fun h => huq (List.cons.inj h).2
      simp only [hne, or_false]
      refine and_congr_left fun hl => ?_
      constructor
      · rintro (hu | rfl)
        · exact hu
        · -- below the new child there is nothing
          rw [hT.outside (x :: q) fun h => hx h.2] at hl
          simp at hl
      · exact .inl

theorem offset?_fresh (c : Config) (hx : x ≠ 0) :
    c.encoding.offset? (c.encoding.fresh x) = none := by
  cases c.encoding with
  | standard => simp [Encoding.fresh, Encoding.offset?, Encoding.offset, hx]
  | reduced => simp [Encoding.fresh, Encoding.offset?, Encoding.offset, Encoding.unset]

theorem word_graft_self (c : Config) (T : Outline) (q : Trail) (x : UInt8) :
    (T.graft c q x).word (x :: q) = c.encoding.fresh x := Function.update_self ..

theorem word_graft_of_ne (h : t ≠ x :: q) : (T.graft c q x).word t = T.word t :=
  Function.update_of_ne h ..

theorem Sound.graft (hT : T.Sound c) (hq : T.Mem q) (hx : x ∉ T.kids q)
    (hroot : q ≠ [] ∨ x ≠ 0) (hterm : ∀ r, q ≠ 0 :: r) : (T.graft c q x).Sound c where
  labels t := by
    by_cases ht : t = q
    · rw [ht, kids_graft_self]
      exact (hT.labels q).insertLabel hx _
    · rw [kids_graft_of_ne x ht]
      exact hT.labels t
  root := by
    by_cases hq0 : [] = q
    · rw [hq0, kids_graft_self, mem_insertLabel]
      rintro (h0 | h0)
      · exact hroot.elim (fun h => h hq0.symm) fun h => h h0.symm
      · rw [← hq0] at h0
        exact hT.root h0
    · rw [kids_graft_of_ne x hq0]
      exact hT.root
  terminal r := by
    rw [kids_graft_of_ne x (hterm r).symm]
    exact hT.terminal r
  outside t ht := by
    rw [hT.mem_graft hq hx, not_or] at ht
    rw [kids_graft_of_ne x (by rintro rfl; exact ht.1 hq)]
    exact hT.outside t ht.1
  ordered ho t := by
    by_cases ht : t = q
    · rw [ht, kids_graft_self, ho]
      exact pairwise_insertLabel (hT.ordered ho q) hx
    · rw [kids_graft_of_ne x ht]
      exact hT.ordered ho t
  leaf l u hl hmem hkids := by
    rcases (hT.mem_graft hq hx _).mp hmem with hmem' | heq
    · have hlu : l :: u ≠ q := by
        rintro rfl
        rw [kids_graft_self] at hkids
        exact insertLabel_ne_nil hkids
      have hlx : l :: u ≠ x :: q := by
        intro h
        rw [h] at hmem'
        exact hx hmem'.2
      rw [kids_graft_of_ne x hlu] at hkids
      have hword : (T.graft c q x).word (l :: u) = T.word (l :: u) := Function.update_of_ne hlx ..
      rw [hword]
      exact hT.leaf l u hl hmem' hkids
    · have hword : (T.graft c q x).word (l :: u) = c.encoding.fresh x := by
        rw [heq]
        exact Function.update_self ..
      rw [hword]
      refine offset?_fresh c ?_
      rw [← (List.cons.inj heq).1]
      exact hl

end Outline

end DoubleArrayTrie
