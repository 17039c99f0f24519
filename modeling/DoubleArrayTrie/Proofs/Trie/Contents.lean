import DoubleArrayTrie.Proofs.Trie.Outline

/-!
# What outlines hold

The value of a key is the word of its terminal, or that of its node if the node is a leaf which holds
a value itself. Storing a value goes down the key and makes what is missing; erasing it goes up again
and takes away what has become of no use. On the way there is one node that has no use yet, or none
any more: the outline holds its keys *up to* that node.

* `Outline.Holds`: an outline holds these keys with these values, and no node but those on the way
  to them and to the one it is up to.
* `Holds.store`, `Holds.erase`: what is held after a value is stored, or a key erased.
-/

namespace DoubleArrayTrie

namespace Outline

variable {c : Config} {T : Outline} {M : Trail → Option Int32} {q r t : Trail} {l x : UInt8} {w : Int}

/-- The value that a leaf holds itself. -/
def leafValue? (c : Config) (T : Outline) (q : Trail) : Option Int :=
  if q ≠ [] ∧ T.kids q = [] ∧ c.encoding.holdsValue (T.word q) = true ∧ T.word q ≠ Encoding.unset
  then some (T.word q)
  else none

/-- The value of the key of a node. -/
def value? (c : Config) (T : Outline) (q : Trail) : Option Int :=
  if 0 ∈ T.kids q then some (T.word (0 :: q)) else T.leafValue? c q

/-- The outline holds the values `M`, and a node for each byte of their keys and of node `q`. -/
structure Holds (c : Config) (T : Outline) (q : Trail) (M : Trail → Option Int32) : Prop where
  value : ∀ t, T.Mem t → 0 ∉ t → T.value? c t = (M t).map Int32.toInt
  mem : ∀ t, 0 ∉ t → (T.Mem t ↔ t <:+ q ∨ ∃ u, t <:+ u ∧ M u ≠ none)
  key : ∀ t, M t ≠ none → t ≠ [] ∧ 0 ∉ t
  accepts : ∀ t v, M t = some v → c.encoding.accepts v = true

/-! ### Values -/

theorem leafValue?_of_kids (h : T.kids q ≠ []) : T.leafValue? c q = none :=
  if_neg fun hleaf => h hleaf.2.1

theorem leafValue?_of_root : T.leafValue? c [] = none := if_neg fun hleaf => hleaf.1 rfl

theorem leafValue?_fresh (h : T.word q = c.encoding.fresh x) : T.leafValue? c q = none := by
  unfold leafValue?
  refine if_neg ?_
  rintro ⟨-, -, hholds, hunset⟩
  rw [h] at hholds hunset
  cases he : c.encoding with
  | standard =>
    rw [he] at hholds
    simp [Encoding.holdsValue] at hholds
  | reduced =>
    rw [he] at hunset
    exact hunset rfl

theorem leafValue?_congr {T' : Outline} (hkids : T'.kids t = T.kids t) (hword : T'.word t = T.word t) :
    T'.leafValue? c t = T.leafValue? c t := by
  unfold leafValue?
  rw [hkids, hword]

theorem value?_congr {T' : Outline} (hkids : T'.kids t = T.kids t) (hword : T'.word t = T.word t)
    (hterm : T'.word (0 :: t) = T.word (0 :: t)) : T'.value? c t = T.value? c t := by
  unfold value?
  rw [hkids, hterm, leafValue?_congr hkids hword]

/-- A trail without the label `0` is not that of a terminal. -/
theorem ne_terminal (h : 0 ∉ t) (r : Trail) : t ≠ 0 :: r := by
  rintro rfl
  exact h List.mem_cons_self

/-! ### What is held -/

/-- What is held up to a node is also held up to any node below it. -/
theorem Holds.upTo (h : T.Holds c r M) (hr : r <:+ q) (hq : T.Mem q) (h0 : 0 ∉ q) :
    T.Holds c q M := by
  refine ⟨h.value, fun t ht0 => ?_, h.key, h.accepts⟩
  rw [h.mem t ht0]
  constructor
  · exact Or.imp_left fun htr => htr.trans hr
  · rintro (htq | hex)
    · exact ((h.mem q h0).mp hq).imp htq.trans fun ⟨u, hqu, hu⟩ => ⟨u, htq.trans hqu, hu⟩
    · exact .inr hex

/-- A node on the way to a value has a use. -/
theorem Holds.close (h : T.Holds c q M) {u : Trail} (hqu : q <:+ u) (hu : M u ≠ none) :
    T.Holds c [] M := by
  refine ⟨h.value, fun t ht0 => ?_, h.key, h.accepts⟩
  rw [h.mem t ht0]
  constructor
  · rintro (htq | hex)
    · exact .inr ⟨u, htq.trans hqu, hu⟩
    · exact .inr hex
  · exact Or.imp_left fun ht => ht.trans List.nil_suffix

/-- Another value for the key of one node. -/
theorem Holds.update {U : Outline} {o : Option Int32} (h : T.Holds c q M)
    (hmem : ∀ t, 0 ∉ t → (U.Mem t ↔ T.Mem t))
    (hother : ∀ t, T.Mem t → t ≠ q → 0 ∉ t → U.value? c t = T.value? c t)
    (hself : U.value? c q = o.map Int32.toInt)
    (ho : ∀ v, o = some v → q ≠ [] ∧ 0 ∉ q ∧ c.encoding.accepts v = true) :
    U.Holds c q (Function.update M q o) where
  value t ht ht0 := by
    by_cases htq : t = q
    · rw [htq, Function.update_self, hself]
    · have hmem' := (hmem t ht0).mp ht
      rw [Function.update_of_ne htq, hother t hmem' htq ht0, h.value t hmem' ht0]
  mem t ht0 := by
    rw [hmem t ht0, h.mem t ht0]
    refine ⟨?_, ?_⟩ <;>
    · rintro (htq | ⟨u, htu, hu⟩)
      · exact .inl htq
      · by_cases huq : u = q
        · exact .inl (huq ▸ htu)
        · exact .inr ⟨u, htu, by simpa only [Function.update_of_ne huq] using hu⟩
  key t ht := by
    by_cases htq : t = q
    · rw [htq, Function.update_self] at ht
      obtain ⟨v, hv⟩ := Option.ne_none_iff_exists'.mp ht
      obtain ⟨hq0, h0, -⟩ := ho v hv
      exact ⟨htq ▸ hq0, htq ▸ h0⟩
    · rw [Function.update_of_ne htq] at ht
      exact h.key t ht
  accepts t v ht := by
    by_cases htq : t = q
    · rw [htq, Function.update_self] at ht
      exact (ho v ht).2.2
    · rw [Function.update_of_ne htq] at ht
      exact h.accepts t v ht

/-! ### Other words -/

/-- The outline with another word for a leaf. -/
def setWord (T : Outline) (t : Trail) (w : Int) : Outline :=
  { T with word := Function.update T.word t w }

@[simp] theorem kids_setWord (T : Outline) (t : Trail) (w : Int) : (T.setWord t w).kids = T.kids := rfl

theorem word_setWord_self (T : Outline) (t : Trail) (w : Int) : (T.setWord t w).word t = w :=
  Function.update_self ..

theorem word_setWord_of_ne (h : t ≠ r) (w : Int) : (T.setWord r w).word t = T.word t :=
  Function.update_of_ne h ..

theorem mem_congr {T' : Outline} (h : T'.kids = T.kids) (t : Trail) : T'.Mem t ↔ T.Mem t := by
  induction t with
  | nil => exact Iff.rfl
  | cons l u ih =>
    unfold Mem
    rw [ih, h]

@[simp] theorem mem_setWord : (T.setWord r w).Mem t ↔ T.Mem t :=
  mem_congr (kids_setWord ..) t

theorem Sound.setWord (hT : T.Sound c)
    (h : ∀ l q, r = l :: q → l ≠ 0 → c.encoding.offset? w = none) : (T.setWord r w).Sound c where
  labels := hT.labels
  root := hT.root
  terminal := hT.terminal
  outside t ht := hT.outside t fun hm => ht (mem_setWord.mpr hm)
  ordered := hT.ordered
  leaf l u hl hmem hkids := by
    by_cases hr : l :: u = r
    · rw [hr, word_setWord_self]
      exact h l u hr.symm hl
    · rw [word_setWord_of_ne hr]
      exact hT.leaf l u hl (mem_setWord.mp hmem) hkids

/-! ### Storing a value -/

/-- The outline in which a leaf with a value has given it to a terminal. -/
def openLeaf (c : Config) (T : Outline) (q : Trail) : Outline :=
  match T.leafValue? c q with
  | none => T
  | some w => (T.graft c q 0).setWord (0 :: q) w

/-- The outline in which node `q` has a child with this label. -/
def ensure (c : Config) (T : Outline) (q : Trail) (x : UInt8) : Outline :=
  if x ∈ T.kids q then T else T.graft c q x

/-- The outline in which the labels lead to a node from node `q`. -/
def extend (c : Config) (T : Outline) (q : Trail) : List UInt8 → Outline
  | [] => T
  | x :: xs => extend c ((T.openLeaf c q).ensure c q x) (x :: q) xs

/-- The outline with this word as the value of node `q`. -/
def setValue (c : Config) (T : Outline) (q : Trail) (w : Int) : Outline :=
  if T.kids q = [] ∧ c.encoding.holdsValue (T.word q) = true then T.setWord q w
  else (T.ensure c q 0).setWord (0 :: q) w

/-- The outline with this word as the value of a key. -/
def store (c : Config) (T : Outline) (key : Key) (w : Int) : Outline :=
  (T.extend c [] key).setValue c key.reverse w

theorem mem_ensure_self (hT : T.Sound c) (hq : T.Mem q) (x : UInt8) :
    (T.ensure c q x).Mem (x :: q) := by
  unfold ensure
  split_ifs with hx
  · exact ⟨hq, hx⟩
  · exact (hT.mem_graft hq hx _).mpr (.inr rfl)

theorem Sound.ensure (hT : T.Sound c) (hq : T.Mem q) (hroot : q ≠ [] ∨ x ≠ 0)
    (hterm : ∀ r, q ≠ 0 :: r) : (T.ensure c q x).Sound c := by
  unfold Outline.ensure
  split_ifs with hx
  · exact hT
  · exact hT.graft hq hx hroot hterm

theorem leafValue?_eq_some (h : T.leafValue? c q = some w) :
    q ≠ [] ∧ T.kids q = [] ∧ T.word q = w := by
  unfold leafValue? at h
  split_ifs at h with hleaf
  exact ⟨hleaf.1, hleaf.2.1, Option.some.inj h⟩

theorem Sound.openLeaf (hT : T.Sound c) (hq : T.Mem q) (h0 : 0 ∉ q) : (T.openLeaf c q).Sound c := by
  unfold Outline.openLeaf
  cases hleaf : T.leafValue? c q with
  | none => exact hT
  | some w =>
    obtain ⟨hne, hkids, -⟩ := leafValue?_eq_some hleaf
    refine (hT.graft hq (by rw [hkids]; simp) (.inl hne) (ne_terminal h0)).setWord ?_
    rintro l u heq hl
    exact absurd (List.cons.inj heq).1.symm hl

theorem mem_openLeaf (hT : T.Sound c) (hq : T.Mem q) (ht : 0 ∉ t) :
    (T.openLeaf c q).Mem t ↔ T.Mem t := by
  unfold openLeaf
  cases hleaf : T.leafValue? c q with
  | none => exact Iff.rfl
  | some w =>
    have hkids := (leafValue?_eq_some hleaf).2.1
    rw [mem_setWord, hT.mem_graft hq (by rw [hkids]; simp)]
    exact or_iff_left (ne_terminal ht q)

/-- The step down to a child adds to the labels of no other node. -/
theorem kids_step_of_ne (x : UInt8) (ht : t ≠ q) :
    ((T.openLeaf c q).ensure c q x).kids t = T.kids t := by
  have hopen : (T.openLeaf c q).kids t = T.kids t := by
    unfold openLeaf
    cases T.leafValue? c q with
    | none => rfl
    | some w => exact kids_graft_of_ne 0 ht
  unfold ensure
  split_ifs
  · exact hopen
  · rw [kids_graft_of_ne x ht, hopen]

theorem leafValue?_openLeaf (c : Config) (T : Outline) (q : Trail) :
    (T.openLeaf c q).leafValue? c q = none := by
  unfold openLeaf
  cases hleaf : T.leafValue? c q with
  | none => exact hleaf
  | some w =>
    refine leafValue?_of_kids ?_
    rw [kids_setWord, kids_graft_self]
    exact insertLabel_ne_nil

/-- A leaf that gives its value to a terminal is still the node of the same key. -/
theorem Holds.openLeaf (h : T.Holds c r M) (hT : T.Sound c) (hq : T.Mem q) (h0 : 0 ∉ q) :
    (T.openLeaf c q).Holds c r M := by
  refine ⟨fun t ht ht0 => ?_, fun t ht0 => ?_, h.key, h.accepts⟩
  · rw [← h.value t ((mem_openLeaf hT hq ht0).mp ht) ht0]
    unfold Outline.openLeaf
    cases hleaf : T.leafValue? c q with
    | none => rfl
    | some w =>
      have hkids := (leafValue?_eq_some hleaf).2.1
      by_cases htq : t = q
      · subst htq
        have hmem : 0 ∈ ((T.graft c t 0).setWord (0 :: t) w).kids t := by
          rw [kids_setWord, kids_graft_self, mem_insertLabel]
          exact .inl rfl
        unfold value?
        rw [if_pos hmem, hkids, if_neg (by simp), word_setWord_self, hleaf]
      · refine value?_congr ?_ ?_ ?_
        · rw [kids_setWord, kids_graft_of_ne 0 htq]
        · rw [word_setWord_of_ne (ne_terminal ht0 q), word_graft_of_ne (ne_terminal ht0 q)]
        · have hne : 0 :: t ≠ 0 :: q := fun heq => htq (List.cons.inj heq).2
          rw [word_setWord_of_ne hne, word_graft_of_ne hne]
  · rw [mem_openLeaf hT hq ht0, h.mem t ht0]

/-- A new child is the node of a longer key, which has no value yet. -/
theorem Holds.graft (h : T.Holds c q M) (hT : T.Sound c) (hq : T.Mem q)
    (hleaf : T.leafValue? c q = none) (hx : x ∉ T.kids q) (hx0 : x ≠ 0) (h0 : 0 ∉ q) :
    (T.graft c q x).Holds c (x :: q) M := by
  have hnew : ¬ T.Mem (x :: q) := fun hm => hx hm.2
  have hx0q : 0 ∉ x :: q := by
    rw [List.mem_cons, not_or]
    exact ⟨Ne.symm hx0, h0⟩
  have hkids : (T.graft c q x).kids (x :: q) = [] := by
    rw [kids_graft_of_ne x (by simp), hT.outside _ hnew]
  have hnone := mt (h.mem _ hx0q).mpr hnew
  rw [not_or] at hnone
  refine ⟨fun t ht ht0 => ?_, fun t ht0 => ?_, h.key, h.accepts⟩
  · rcases (hT.mem_graft hq hx t).mp ht with hmem | rfl
    · rw [← h.value t hmem ht0]
      have htx : t ≠ x :: q := by
        rintro rfl
        exact hnew hmem
      have hterm : 0 :: t ≠ x :: q := fun heq => hx0 (List.cons.inj heq).1.symm
      by_cases htq : t = q
      · subst htq
        unfold value?
        rw [hleaf, leafValue?_of_kids (by rw [kids_graft_self]; exact insertLabel_ne_nil),
          word_graft_of_ne hterm]
        simp only [kids_graft_self, mem_insertLabel, Ne.symm hx0, false_or]
      · exact value?_congr (kids_graft_of_ne x htq) (word_graft_of_ne htx) (word_graft_of_ne hterm)
    · have hM : M (x :: q) = none := by
        by_contra hsome
        exact hnone.2 ⟨_, List.suffix_refl _, hsome⟩
      unfold value?
      rw [hM, hkids, if_neg (by simp), leafValue?_fresh (word_graft_self c T q x)]
      rfl
  · rw [hT.mem_graft hq hx, h.mem t ht0, List.suffix_cons_iff, or_comm, or_assoc]

/-- A child that is there or made is the node of a longer key. -/
theorem Holds.ensure (h : T.Holds c q M) (hT : T.Sound c) (hq : T.Mem q)
    (hleaf : T.leafValue? c q = none) (hx0 : x ≠ 0) (h0 : 0 ∉ q) :
    (T.ensure c q x).Holds c (x :: q) M := by
  unfold Outline.ensure
  split_ifs with hx
  · refine ⟨h.value, fun t ht0 => ?_, h.key, h.accepts⟩
    rw [List.suffix_cons_iff, or_assoc, ← h.mem t ht0]
    refine ⟨.inr, ?_⟩
    rintro (rfl | hmem)
    · exact ⟨hq, hx⟩
    · exact hmem
  · exact h.graft hT hq hleaf hx hx0 h0

/-- The nodes on the way down a key are there or made. -/
theorem Sound.extend {ls : List UInt8} (hT : T.Sound c) (hq : T.Mem q) (h0 : 0 ∉ q) (hls : 0 ∉ ls) :
    (T.extend c q ls).Sound c ∧ (T.extend c q ls).Mem (ls.reverse ++ q) := by
  induction ls generalizing T q with
  | nil => exact ⟨hT, hq⟩
  | cons x ls ih =>
    rw [List.mem_cons, not_or] at hls
    have hmem := (mem_openLeaf hT hq h0).mpr hq
    have hopen := hT.openLeaf hq h0
    have hensure := hopen.ensure (x := x) hmem (.inr (Ne.symm hls.1)) (ne_terminal h0)
    have hxq : 0 ∉ x :: q := by
      rw [List.mem_cons, not_or]
      exact ⟨hls.1, h0⟩
    have hrest := ih hensure (mem_ensure_self hopen hmem x) hxq hls.2
    rwa [List.reverse_cons, List.append_assoc]

theorem Holds.extend {ls : List UInt8} (h : T.Holds c q M) (hT : T.Sound c) (hq : T.Mem q)
    (h0 : 0 ∉ q) (hls : 0 ∉ ls) : (T.extend c q ls).Holds c (ls.reverse ++ q) M := by
  induction ls generalizing T q with
  | nil => exact h
  | cons x ls ih =>
    rw [List.mem_cons, not_or] at hls
    have hx0 : x ≠ 0 := Ne.symm hls.1
    have hmem := (mem_openLeaf hT hq h0).mpr hq
    have hopen := hT.openLeaf hq h0
    have hensure := (h.openLeaf hT hq h0).ensure hopen hmem (leafValue?_openLeaf c T q) hx0 h0
    have hxq : 0 ∉ x :: q := by
      rw [List.mem_cons, not_or]
      exact ⟨hls.1, h0⟩
    have hrest := ih hensure (hopen.ensure hmem (.inr hx0) (ne_terminal h0))
      (mem_ensure_self hopen hmem x) hxq hls.2
    rwa [List.reverse_cons, List.append_assoc]

/-- **A value is stored** for the key of node `q`, which has a use then. -/
theorem Holds.setValue {v : Int32} (h : T.Holds c q M) (hT : T.Sound c) (hq : T.Mem q) (hq0 : q ≠ [])
    (h0 : 0 ∉ q) (hv : c.encoding.accepts v = true) :
    (T.setValue c q v.toInt).Holds c [] (Function.update M q (some v)) := by
  refine (h.update (U := T.setValue c q v.toInt) (o := some v) (fun t ht0 => ?_)
    (fun t ht htq ht0 => ?_) ?_ fun v' hv' => ⟨hq0, h0, Option.some.inj hv' ▸ hv⟩).close
      (List.suffix_refl q) (by simp)
  · unfold Outline.setValue Outline.ensure
    split_ifs with hleaf hterm
    · exact mem_setWord
    · exact mem_setWord
    · rw [mem_setWord, hT.mem_graft hq hterm]
      exact or_iff_left (ne_terminal ht0 q)
  · have hterm : 0 :: t ≠ 0 :: q := fun heq => htq (List.cons.inj heq).2
    have hne := ne_terminal ht0 q
    unfold Outline.setValue Outline.ensure
    split_ifs
    · refine value?_congr rfl (word_setWord_of_ne htq _) (word_setWord_of_ne ?_ _)
      exact (ne_terminal h0 t).symm
    · exact value?_congr rfl (word_setWord_of_ne hne _) (word_setWord_of_ne hterm _)
    · refine value?_congr (kids_graft_of_ne 0 htq) ?_ ?_
      · rw [word_setWord_of_ne hne, word_graft_of_ne hne]
      · rw [word_setWord_of_ne hterm, word_graft_of_ne hterm]
  · unfold Outline.setValue
    split_ifs with hleaf
    · -- the leaf is one of the reduced encoding, which accepts the value
      have hholds := Encoding.holdsValue_of_accepts hleaf.2 hv
      unfold value? leafValue?
      rw [kids_setWord, hleaf.1, if_neg (by simp), word_setWord_self, if_pos ⟨hq0, rfl, hholds⟩]
      rfl
    · unfold value?
      rw [kids_setWord, if_pos (mem_ensure_self hT hq 0).2, word_setWord_self]
      rfl

/-- **What is held after a value is stored.** -/
theorem Holds.store {key : Key} {v : Int32} (h : T.Holds c [] M) (hT : T.Sound c) (hkey : key ≠ [])
    (h0 : 0 ∉ key) (hv : c.encoding.accepts v = true) :
    (T.store c key v.toInt).Holds c [] (Function.update M key.reverse (some v)) := by
  have hholds := h.extend hT trivial (by simp) h0
  obtain ⟨hsound, hmem⟩ := hT.extend (q := []) trivial (by simp) h0
  rw [List.append_nil] at hholds hmem
  exact hholds.setValue hsound hmem (by simpa) (by rwa [List.mem_reverse]) hv

/-! ### Where values are -/

/-- The node whose word is the value of a node that has one: its terminal, if there is one, or
itself. -/
def valueTrail (T : Outline) (q : Trail) : Trail := if 0 ∈ T.kids q then 0 :: q else q

theorem mem_valueTrail (hq : T.Mem q) : T.Mem (T.valueTrail q) := by
  unfold valueTrail
  split_ifs with hkid
  · exact ⟨hq, hkid⟩
  · exact hq

theorem length_valueTrail_le (T : Outline) (q : Trail) : (T.valueTrail q).length ≤ q.length + 1 := by
  unfold valueTrail
  split_ifs <;> simp

/-- The slots of the values of two keys are not the same. -/
theorem valueTrail_inj (hq : 0 ∉ q) (hr : 0 ∉ r) (h : T.valueTrail q = T.valueTrail r) : q = r := by
  unfold valueTrail at h
  split_ifs at h
  · exact (List.cons.inj h).2
  · exact absurd h.symm (ne_terminal hr q)
  · exact absurd h (ne_terminal hq r)
  · exact h

/-- Only a leaf has the word of a value. -/
theorem Sound.leaf_valueTrail (hT : T.Sound c) (hw : T.value? c q = some w) :
    T.valueTrail q ≠ [] ∧ T.kids (T.valueTrail q) = [] := by
  unfold valueTrail
  unfold value? at hw
  split_ifs at hw ⊢ with hkid
  · exact ⟨by simp, hT.terminal q⟩
  · obtain ⟨hq0, hkids, -⟩ := leafValue?_eq_some hw
    exact ⟨hq0, hkids⟩

/-- Where there is no terminal the encoding is one whose leaves hold values. -/
theorem holdsValue_valueTrail (hw : T.value? c q = some w) (hterm : ∀ r, T.valueTrail q ≠ 0 :: r) :
    c.encoding.holdsValue (T.word (T.valueTrail q)) = true := by
  unfold valueTrail at hterm ⊢
  unfold value? leafValue? at hw
  split_ifs at hw hterm ⊢ with hkid hleaf
  · exact absurd rfl (hterm q)
  · exact hleaf.2.2.1

/-- A value takes the place of another. -/
theorem setValue_of_value? {w' : Int} (hw : T.value? c q = some w) :
    T.setValue c q w' = T.setWord (T.valueTrail q) w' := by
  unfold setValue valueTrail ensure
  unfold value? at hw
  split_ifs at hw with hkid
  · rw [if_neg fun hleaf => by rw [hleaf.1] at hkid; simp at hkid, if_pos hkid, if_pos hkid]
  · unfold leafValue? at hw
    split_ifs at hw with hleaf
    rw [if_pos ⟨hleaf.2.1, hleaf.2.2.1⟩, if_neg hkid]

/-! ### Erasing a key -/

/-- The outline without the child `l` of node `q`. If the node becomes a leaf its word says nothing. -/
def cut (c : Config) (T : Outline) (q : Trail) (l : UInt8) : Outline where
  kids := Function.update T.kids q ((T.kids q).erase l)
  word := Function.update T.word q (c.encoding.fresh (q.headD 0))

/-- The outline without a leaf, and without the nodes above it that have no other child. -/
def prune (c : Config) (T : Outline) : Trail → Outline
  | [] => T
  | l :: q => if T.kids q = [l] ∧ q ≠ [] then prune c (T.cut c q l) q else T.cut c q l

/-- The outline without a key, which has a value. -/
def erase (c : Config) (T : Outline) (q : Trail) : Outline :=
  T.prune c (if 0 ∈ T.kids q then 0 :: q else q)

theorem kids_cut_self (c : Config) (T : Outline) (q : Trail) (l : UInt8) :
    (T.cut c q l).kids q = (T.kids q).erase l := Function.update_self ..

theorem kids_cut_of_ne (h : t ≠ q) (l : UInt8) : (T.cut c q l).kids t = T.kids t :=
  Function.update_of_ne h ..

theorem word_cut_self (c : Config) (T : Outline) (q : Trail) (l : UInt8) :
    (T.cut c q l).word q = c.encoding.fresh (q.headD 0) := Function.update_self ..

theorem word_cut_of_ne (h : t ≠ q) (l : UInt8) : (T.cut c q l).word t = T.word t :=
  Function.update_of_ne h ..

/-- The nodes of an outline without a leaf. -/
theorem Sound.mem_cut (hT : T.Sound c) (hleaf : T.kids (l :: q) = []) (t : Trail) :
    (T.cut c q l).Mem t ↔ T.Mem t ∧ t ≠ l :: q := by
  induction t with
  | nil => simp [Mem]
  | cons m u ih =>
    unfold Mem
    rw [ih]
    by_cases huq : u = q
    · subst huq
      rw [kids_cut_self, (hT.labels u).nodup.mem_erase_iff]
      simp only [ne_eq, List.cons.injEq, and_true]
      have hself : u ≠ l :: u := by simp
      tauto
    · rw [kids_cut_of_ne huq]
      have hne : m :: u ≠ l :: q := fun heq => huq (List.cons.inj heq).2
      refine ⟨fun h => ⟨⟨h.1.1, h.2⟩, hne⟩, fun h => ⟨⟨h.1.1, ?_⟩, h.1.2⟩⟩
      rintro rfl
      rw [hleaf] at h
      simpa using h.1.2

theorem Sound.cut (hT : T.Sound c) (hl : l ∈ T.kids q) (hleaf : T.kids (l :: q) = []) :
    (T.cut c q l).Sound c where
  labels t := by
    by_cases ht : t = q
    · rw [ht, kids_cut_self]
      exact (hT.labels q).erase l
    · rw [kids_cut_of_ne ht]
      exact hT.labels t
  root := by
    by_cases hq : [] = q
    · rw [hq, kids_cut_self]
      exact fun h0 => hT.root (hq ▸ List.mem_of_mem_erase h0)
    · rw [kids_cut_of_ne hq]
      exact hT.root
  terminal r := by
    rw [kids_cut_of_ne, hT.terminal r]
    rintro rfl
    rw [hT.terminal r] at hl
    simp at hl
  outside t ht := by
    have htq : t ≠ q := by
      rintro rfl
      refine ht ((hT.mem_cut hleaf t).mpr ⟨?_, by simp⟩)
      by_contra hmem
      rw [hT.outside t hmem] at hl
      simp at hl
    rw [kids_cut_of_ne htq]
    by_cases htl : t = l :: q
    · rw [htl, hleaf]
    · exact hT.outside t fun hmem => ht ((hT.mem_cut hleaf t).mpr ⟨hmem, htl⟩)
  ordered ho t := by
    by_cases ht : t = q
    · rw [ht, kids_cut_self]
      exact (hT.ordered ho q).sublist List.erase_sublist
    · rw [kids_cut_of_ne ht]
      exact hT.ordered ho t
  leaf m u hm hmem hkids := by
    by_cases hq : m :: u = q
    · rw [hq, word_cut_self, ← hq]
      exact offset?_fresh c hm
    · rw [kids_cut_of_ne hq] at hkids
      rw [word_cut_of_ne hq]
      exact hT.leaf m u hm ((hT.mem_cut hleaf _).mp hmem).1 hkids

theorem kids_cut (T : Outline) (q : Trail) (l : UInt8) (t : Trail) :
    ((T.cut c q l).kids t).Sublist (T.kids t) := by
  by_cases ht : t = q
  · rw [ht, kids_cut_self]
    exact List.erase_sublist
  · rw [kids_cut_of_ne ht]

/-- The children that are left keep their order. -/
theorem kids_prune (T : Outline) (q t : Trail) : ((T.prune c q).kids t).Sublist (T.kids t) := by
  induction q generalizing T with
  | nil => exact List.Sublist.refl _
  | cons l q ih =>
    unfold prune
    split_ifs
    · exact (ih _).trans (kids_cut T q l t)
    · exact kids_cut T q l t

theorem leafValue?_cut (c : Config) (T : Outline) (q : Trail) (l : UInt8) :
    (T.cut c q l).leafValue? c q = none := leafValue?_fresh (word_cut_self c T q l)

theorem value?_cut_of_ne (ht : t ≠ q) (h0 : 0 ∉ q) (l : UInt8) :
    (T.cut c q l).value? c t = T.value? c t :=
  value?_congr (kids_cut_of_ne ht l) (word_cut_of_ne ht l) (word_cut_of_ne (ne_terminal h0 t).symm l)

/-- Without its terminal a node has no value. -/
theorem Holds.cut_terminal (h : T.Holds c q M) (hT : T.Sound c) (h0 : 0 ∉ q) :
    (T.cut c q 0).Holds c q (Function.update M q none) := by
  refine h.update (fun t ht0 => ?_) (fun t _ htq _ => value?_cut_of_ne htq h0 0) ?_
    fun v hv => absurd hv (by simp)
  · rw [hT.mem_cut (hT.terminal q)]
    exact and_iff_left (ne_terminal ht0 q)
  · have hnot : 0 ∉ (T.kids q).erase 0 := (hT.labels q).nodup.not_mem_erase
    rw [value?, kids_cut_self, if_neg hnot, leafValue?_cut]
    rfl

/-- No node is below a leaf. -/
theorem eq_of_leaf_suffix {u : Trail} (hleaf : T.kids t = []) (hu : T.Mem u) (htu : t <:+ u) :
    u = t := by
  induction u with
  | nil => exact (List.suffix_nil.mp htu).symm
  | cons m u ih =>
    rcases List.suffix_cons_iff.mp htu with rfl | htu
    · rfl
    · obtain rfl := ih hu.1 htu
      have hm := hu.2
      rw [hleaf] at hm
      simp at hm

/-- **A leaf holds a value**, if it is none of the nodes that no key needs. -/
theorem Holds.exists_leafValue_of_not (h : T.Holds c q M) (ht : T.Mem t) (h0 : 0 ∉ t)
    (hleaf : T.kids t = []) (hq : ¬ t <:+ q) : ∃ v : Int32, T.leafValue? c t = some v.toInt := by
  -- a key that needs the leaf ends there
  obtain ⟨u, hu, hM⟩ := ((h.mem _ h0).mp ht).resolve_left hq
  have hmem := (h.mem u (h.key u hM).2).mpr (.inr ⟨u, List.suffix_rfl, hM⟩)
  obtain rfl := eq_of_leaf_suffix hleaf hmem hu
  have hvalue := h.value _ ht h0
  unfold value? at hvalue
  rw [if_neg (by rw [hleaf]; simp)] at hvalue
  obtain ⟨v, hv⟩ := Option.ne_none_iff_exists'.mp hM
  rw [hv] at hvalue
  exact ⟨v, hvalue⟩

theorem Holds.exists_leafValue (h : T.Holds c [] M) (ht : T.Mem t) (h0 : 0 ∉ t)
    (hleaf : T.kids t = []) (hne : t ≠ []) : ∃ v : Int32, T.leafValue? c t = some v.toInt :=
  h.exists_leafValue_of_not ht h0 hleaf (by simpa using hne)

/-- A node has a value if its first child, if it has one, is a terminal: only the root of an outline
without entries has neither. -/
theorem Holds.exists_value? (h : T.Holds c [] M) (ht : T.Mem t) (h0 : 0 ∉ t)
    (hend : (T.kids t).headD 0 = 0) (hroot : t = [] → T.kids t ≠ []) :
    ∃ w, T.value? c t = some w := by
  unfold value?
  by_cases hkid : 0 ∈ T.kids t
  · exact ⟨_, if_pos hkid⟩
  rw [if_neg hkid]
  have hleaf : T.kids t = [] := by
    by_contra hne
    obtain ⟨l, ls, hk⟩ := List.exists_cons_of_ne_nil hne
    rw [hk, List.headD_cons] at hend
    exact hkid (by rw [hk, hend]; exact List.mem_cons_self)
  obtain ⟨v, hv⟩ := h.exists_leafValue ht h0 hleaf fun hnil => hroot hnil hleaf
  exact ⟨_, hv⟩

/-- Without a leaf its key is not held. -/
theorem Holds.cut (h : T.Holds c (l :: q) M) (hT : T.Sound c) (hq : T.Mem q) (hl : l ∈ T.kids q)
    (hleaf : T.kids (l :: q) = []) (hl0 : l ≠ 0) (h0 : 0 ∉ q) :
    (T.cut c q l).Holds c q (Function.update M (l :: q) none) := by
  have hl0q : 0 ∉ l :: q := by
    rw [List.mem_cons, not_or]
    exact ⟨Ne.symm hl0, h0⟩
  have hmem := hT.mem_cut (c := c) hleaf
  refine ⟨fun t ht ht0 => ?_, fun t ht0 => ?_, fun t ht => ?_, fun t v ht => ?_⟩
  · obtain ⟨hmem', hne⟩ := (hmem t).mp ht
    rw [Function.update_of_ne hne, ← h.value t hmem' ht0]
    by_cases htq : t = q
    · subst htq
      unfold value?
      have hterm : 0 :: t ≠ t := by simp
      rw [leafValue?_cut, leafValue?_of_kids (List.ne_nil_of_mem hl), word_cut_of_ne hterm,
        kids_cut_self]
      simp only [List.mem_erase_of_ne (Ne.symm hl0)]
    · exact value?_cut_of_ne htq h0 l
  · rw [hmem t, h.mem t ht0]
    constructor
    · rintro ⟨htq | ⟨u, htu, hu⟩, hne⟩
      · exact .inl ((List.suffix_cons_iff.mp htq).resolve_left hne)
      · by_cases hul : u = l :: q
        · rw [hul] at htu
          exact .inl ((List.suffix_cons_iff.mp htu).resolve_left hne)
        · exact .inr ⟨u, htu, by rwa [Function.update_of_ne hul]⟩
    · rintro (htq | ⟨u, htu, hu⟩)
      · refine ⟨.inl (htq.trans (List.suffix_cons l q)), ?_⟩
        rintro rfl
        have := htq.length_le
        simp at this
      · have hul : u ≠ l :: q := by
          rintro rfl
          simp at hu
        rw [Function.update_of_ne hul] at hu
        refine ⟨.inr ⟨u, htu, hu⟩, ?_⟩
        rintro rfl
        have hmemu := (h.mem u (h.key u hu).2).mpr (.inr ⟨u, List.suffix_refl u, hu⟩)
        exact hul (eq_of_leaf_suffix hleaf hmemu htu)
  · by_cases htl : t = l :: q
    · rw [htl, Function.update_self] at ht
      exact absurd rfl ht
    · rw [Function.update_of_ne htl] at ht
      exact h.key t ht
  · by_cases htl : t = l :: q
    · rw [htl, Function.update_self] at ht
      simp at ht
    · rw [Function.update_of_ne htl] at ht
      exact h.accepts t v ht

/-- A node with children is on the way to a value. -/
theorem Holds.close_of_kids (h : T.Holds c q M) (hq : T.Mem q) (h0 : 0 ∉ q) (hk : T.kids q ≠ []) :
    T.Holds c [] M := by
  obtain ⟨l, hl⟩ := List.exists_mem_of_ne_nil _ hk
  by_cases hl0 : l = 0
  · subst hl0
    refine h.close (List.suffix_refl q) fun hnone => ?_
    have hvalue := h.value q hq h0
    rw [value?, if_pos hl, hnone] at hvalue
    simp at hvalue
  · have hl0q : 0 ∉ l :: q := by
      rw [List.mem_cons, not_or]
      exact ⟨Ne.symm hl0, h0⟩
    rcases (h.mem _ hl0q).mp ⟨hq, hl⟩ with hlq | ⟨u, hlu, hu⟩
    · have := hlq.length_le
      simp at this
    · exact h.close ((List.suffix_cons l q).trans hlu) hu

/-- **The nodes above a leaf that goes go with it** as far as they have no other use. -/
theorem Holds.prune (hT : T.Sound c) (hq : T.Mem q) (hl : l ∈ T.kids q) (hleaf : T.kids (l :: q) = [])
    (h0 : 0 ∉ q) (h : (T.cut c q l).Holds c q M) : (T.prune c (l :: q)).Holds c [] M := by
  induction q generalizing T l with
  | nil =>
    unfold Outline.prune
    rw [if_neg fun hk => hk.2 rfl]
    exact h
  | cons m u ih =>
    have hsound := hT.cut hl hleaf
    have hmem : (T.cut c (m :: u) l).Mem (m :: u) := (hT.mem_cut hleaf _).mpr ⟨hq, by simp⟩
    unfold Outline.prune
    split_ifs with hk
    · have hempty : (T.cut c (m :: u) l).kids (m :: u) = [] := by
        rw [kids_cut_self, hk.1]
        exact List.erase_cons_head ..
      have hnone : M (m :: u) = none := by
        have hvalue := h.value _ hmem h0
        rw [value?, hempty, if_neg (by simp), leafValue?_cut] at hvalue
        simpa using hvalue.symm
      rw [List.mem_cons, not_or] at h0
      refine ih hsound hmem.1 hmem.2 hempty h0.2 ?_
      have hcut := h.cut hsound hmem.1 hmem.2 hempty (Ne.symm h0.1) h0.2
      rwa [← hnone, Function.update_eq_self] at hcut
    · refine h.close_of_kids hmem h0 fun hempty => hk ⟨?_, by simp⟩
      rw [kids_cut_self] at hempty
      exact eq_singleton_of_erase hl hempty

/-- **What is held after a key is erased.** -/
theorem Holds.erase (h : T.Holds c [] M) (hT : T.Sound c) (hq : T.Mem q) (h0 : 0 ∉ q)
    (hM : M q ≠ none) : (T.erase c q).Holds c [] (Function.update M q none) := by
  have hup := h.upTo List.nil_suffix hq h0
  unfold Outline.erase
  split_ifs with hterm
  · exact Holds.prune hT hq hterm (hT.terminal q) h0 (hup.cut_terminal hT h0)
  · obtain ⟨w, hw⟩ : ∃ w, T.leafValue? c q = some w := by
      have hvalue := h.value q hq h0
      rw [value?, if_neg hterm] at hvalue
      obtain ⟨v, hv⟩ := Option.ne_none_iff_exists'.mp hM
      exact ⟨v.toInt, by rw [hvalue, hv]; rfl⟩
    obtain ⟨hq0, hleaf, -⟩ := leafValue?_eq_some hw
    obtain ⟨l, u, rfl⟩ := List.exists_cons_of_ne_nil hq0
    have h0' := h0
    rw [List.mem_cons, not_or] at h0'
    have hcut := hup.cut hT hq.1 hq.2 hleaf (Ne.symm h0'.1) h0'.2
    exact Holds.prune hT hq.1 hq.2 hleaf h0'.2 hcut

end Outline

end DoubleArrayTrie
