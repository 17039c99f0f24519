import DoubleArrayTrie.Proofs.Trie.Listing

/-!
# Going from key to key visits the listing

A cursor goes down along first children and up to the next sibling. When it has gone through all keys
below a node, it goes on as if the node had had none: so from the first key of a node on it visits
what the outline lists there, and then what comes after the node (`resume`).

A leaf without a value stops this. Everything before it is visited all the same, and so is everything
after it, once the cursor has come past it.

* `Visits`: the keys that a cursor visits on its way to another one.
* `Lays.firstKey?_down`: the first key below a node is that below its first child.
* `Lays.visits_listing`: the keys below a node are visited in the order of the listing.
* `Lays.visits_around`: the keys before and after a leaf without a value.
-/

namespace DoubleArrayTrie

/-- The way down from a node to one below it goes through a child. -/
theorem exists_cons_suffix {t u : Trail} (h : t <:+ u) (hne : t ≠ u) : ∃ l, l :: t <:+ u := by
  obtain ⟨r, rfl⟩ := h
  obtain ⟨r, l, rfl⟩ := (List.eq_nil_or_concat r).resolve_left fun hr => hne (by rw [hr]; rfl)
  exact ⟨l, r, by simp⟩

/-- Every leaf at or below node `t` has a value, but for the root. -/
def Outline.Full (c : Config) (T : Outline) (t : Trail) : Prop :=
  ∀ u, t <:+ u → T.Mem u → 0 ∉ u → u ≠ [] → T.kids u = [] → ∃ v, T.leafValue? c u = some v

theorem Outline.Holds.full {c : Config} {T : Outline} {M : Trail → Option Int32}
    (hM : T.Holds c [] M) (t : Trail) : T.Full c t := fun _ _ hu h0 hne hkids =>
  (hM.exists_leafValue hu h0 hkids hne).imp' Int32.toInt fun _ => id

/-- The cursor at node `t`, counted from node `s`. -/
def Outline.cursor (c : Config) (T : Outline) (off : Trail → Nat) (s t : Trail) : Cursor :=
  ⟨locate off t, t.length - s.length, Int32.ofInt ((T.value? c t).getD 0)⟩

/-- The labels of the children that are no terminals. -/
theorem IsLabels.filter_eq {ls : List UInt8} (h : IsLabels ls) :
    (0 ∈ ls ∧ ls = 0 :: ls.filter (· ≠ 0)) ∨ (0 ∉ ls ∧ ls.filter (· ≠ 0) = ls) := by
  have hkeep : ∀ ms : List UInt8, 0 ∉ ms → ms.filter (· ≠ 0) = ms := fun ms hms =>
    List.filter_eq_self.mpr fun l hl => by
      simpa using fun hl0 : l = 0 => hms (hl0 ▸ hl)
  by_cases h0 : 0 ∈ ls
  · left
    obtain ⟨ls, rfl⟩ := h.exists_cons h0
    rw [List.filter_cons_of_neg (by simp), hkeep ls h.tail]
    exact ⟨h0, rfl⟩
  · exact .inr ⟨h0, hkeep ls h0⟩

/-- A chain ends with the children that are no terminals. -/
theorem Outline.Sound.chain_eq_append {c : Config} {T : Outline} (hT : T.Sound c) (t : Trail) :
    ∃ pre, T.chain t = pre ++ (T.kids t).filter (· ≠ 0) ∧ 0 ∉ (T.kids t).filter (· ≠ 0) := by
  have hnot : 0 ∉ (T.kids t).filter (· ≠ 0) := by simp
  rcases t with _ | ⟨l, q⟩
  · refine ⟨[0], ?_, hnot⟩
    rw [Outline.chain_nil]
    rcases (hT.labels []).filter_eq with ⟨h0, -⟩ | ⟨-, hkids⟩
    · exact absurd h0 hT.root
    · rw [hkids]
      rfl
  · rw [Outline.chain_cons]
    rcases (hT.labels (l :: q)).filter_eq with ⟨-, hkids⟩ | ⟨-, hkids⟩
    · exact ⟨[0], hkids, hnot⟩
    · exact ⟨[], hkids.symm, hnot⟩

namespace Pool

variable {c : Config} {p : Pool} {T : Outline} {off : Trail → Nat} {q s t : Trail} {l : UInt8}
  {n d root : Nat}

/-- From a cursor these keys are visited, and then it is at the other one. -/
inductive Visits (c : Config) (p : Pool) (root : Nat) :
    Option Cursor → List Cursor → Option Cursor → Prop
  | refl (k? : Option Cursor) : Visits c p root k? [] k?
  | step {k : Cursor} {ks : List Cursor} {k? : Option Cursor}
      (h : Visits c p root (p.nextKey? c root k) ks k?) : Visits c p root (some k) (k :: ks) k?

theorem Visits.trans {a b d : Option Cursor} {ks ks' : List Cursor} (h : Visits c p root a ks b)
    (h' : Visits c p root b ks' d) : Visits c p root a (ks ++ ks') d := by
  induction h with
  | refl => exact h'
  | step _ ih => exact .step (ih h')

/-- The key that comes next where `l` is the next label among the children of node `n`. -/
def resume (c : Config) (p : Pool) (root depth : Nat) (l : UInt8) (n : Nat) : Option Cursor :=
  match p.climb root depth l n with
  | none => none
  | some (l, m, depth) => p.firstKey? c (p.offsetOf c m ^^^ l.toNat) (depth + 1)

theorem nextKey?_eq (k : Cursor) : p.nextKey? c root k = p.resume c root k.depth
    (if c.encoding.holdsValue (p.slot k.node).base then 0
      else (p.slot (p.offsetOf c k.node)).sibling) k.node := rfl

theorem resume_of_ne (hl : l ≠ 0) :
    p.resume c root d l n = p.firstKey? c (p.offsetOf c n ^^^ l.toNat) (d + 1) := by
  unfold resume
  cases d with
  | zero => rw [climb, if_pos hl]
  | succ d => rw [climb, if_pos hl]

theorem resume_zero : p.resume c root 0 0 n = none := rfl

theorem resume_succ (hn : n ≠ root) : p.resume c root (d + 1) 0 n =
    p.resume c root d (p.slot n).sibling (p.slot n).check.toNat := by
  unfold resume
  rw [climb, if_neg (by simp), if_neg hn]

namespace Lays

/-! ### Down to the first key -/

/-- A way down that is long enough for all nodes ends by itself. -/
theorem descend_succ (h : p.Lays c T off) (ht : T.Mem t)
    (hn : ∀ u, T.Mem u → u.length ≤ t.length + n) (d : Nat) :
    p.descend c (n + 1) ((T.kids t).headD 0) (locate off t) d =
      p.descend c n ((T.kids t).headD 0) (locate off t) d := by
  induction n generalizing t d with
  | zero =>
    have hleaf : T.kids t = [] := by
      rw [List.eq_nil_iff_forall_not_mem]
      intro l hl
      have hle := hn (l :: t) ⟨ht, hl⟩
      simp at hle
    rw [hleaf]
    rfl
  | succ n ih =>
    rcases hk : T.kids t with _ | ⟨l, ls⟩
    · rfl
    · have hmem : T.Mem (l :: t) := ⟨ht, by rw [hk]; exact List.mem_cons_self⟩
      rw [List.headD_cons]
      by_cases hl : l = 0
      · subst hl
        rfl
      · have hm : p.offsetOf c (locate off t) ^^^ l.toNat = locate off (l :: t) := by
          rw [h.offsetOf_eq ht (.inr (by rw [hk]; simp))]
          rfl
        have hchild := h.child_eq hmem
        rw [Outline.chain_cons] at hchild
        have hrec := ih hmem (fun u hu => by have := hn u hu; rw [List.length_cons]; omega) (d + 1)
        unfold descend
        rw [if_neg hl, if_neg hl]
        dsimp only
        rw [hm, hchild]
        exact hrec

/-- The label of the first child, or `0` where there is none. -/
theorem firstLabel_eq (h : p.Lays c T off) (ht : T.Mem t) :
    (if locate off t = 0 then
      (p.slot (p.offsetOf c 0 ^^^ (p.slot (locate off t)).child.toNat)).sibling
      else (p.slot (locate off t)).child) = (T.kids t).headD 0 := by
  rcases t with _ | ⟨l, q⟩
  · have hroot : locate off [] = 0 := rfl
    have hoff : p.offsetOf c 0 = 0 := (h.offsetOf_eq (t := []) trivial (.inl rfl)).trans h.root
    have hslot : p.slot 0 = T.slot c off (locate off) [] := h.slot_eq (t := []) trivial
    rw [hroot, if_pos rfl, hoff, hslot]
    show (p.slot (0 ^^^ (0 : UInt8).toNat)).sibling = _
    rw [show 0 ^^^ (0 : UInt8).toNat = 0 from rfl, hslot]
    rfl
  · have hne : locate off (l :: q) ≠ 0 := fun h0 => by simpa using h.locate_eq_zero ht h0
    rw [if_neg hne, h.child_eq ht, Outline.chain_cons]

/-- The word that is the value of a node. -/
theorem base_valueSlot (h : p.Lays c T off) (ht : T.Mem t) {w : Int} (hw : T.value? c t = some w) :
    (p.slot (p.valueSlot c (locate off t))).base = w := by
  have hholds := h.holdsValue_base ht
  unfold valueSlot
  by_cases hkid : 0 ∈ T.kids t
  · have hkids := List.ne_nil_of_mem hkid
    have hslot : off t = locate off (0 :: t) := (Nat.xor_zero _).symm
    rw [Outline.value?, if_pos hkid] at hw
    rw [if_neg fun hc => hkids (hholds.mp hc).2.1, h.offsetOf_eq ht (.inr hkids), hslot,
      h.base_of_leaf ⟨ht, hkid⟩ (h.sound.terminal t)]
    exact Option.some.inj hw
  · rw [Outline.value?, if_neg hkid, h.leafValue?_eq ht] at hw
    split_ifs at hw with hbase
    rw [if_pos hbase.1]
    exact Option.some.inj hw

/-- A node whose first child, if it has one, is a terminal is where the way down ends. -/
theorem firstKey?_end (h : p.Lays c T off) (ht : T.Mem t) (hne : t ≠ [])
    (hend : (T.kids t).headD 0 = 0) (d : Nat) : p.firstKey? c (locate off t) d =
      some ⟨locate off t, d, Int32.ofInt (p.slot (p.valueSlot c (locate off t))).base⟩ := by
  have hlabel := h.firstLabel_eq ht
  have hdown : p.descend c p.capacity 0 (locate off t) d = (locate off t, d) := by
    cases p.capacity <;> rfl
  unfold firstKey?
  dsimp only
  rw [hlabel, hend, if_neg fun hc => hne (h.locate_eq_zero ht hc.1), hdown]

/-- There it is at the value of the node. -/
theorem firstKey?_stop (h : p.Lays c T off) (ht : T.Mem t) (hne : t ≠ [])
    (hend : (T.kids t).headD 0 = 0) {w : Int} (hw : T.value? c t = some w) (d : Nat) :
    p.firstKey? c (locate off t) d = some ⟨locate off t, d, Int32.ofInt w⟩ := by
  rw [h.firstKey?_end ht hne hend, h.base_valueSlot ht hw]

/-- **The first key below a node is that below its first child**, unless that is a terminal. -/
theorem firstKey?_down (h : p.Lays c T off) (ht : T.Mem t) {ls : List UInt8}
    (hk : T.kids t = l :: ls) (hl : l ≠ 0) (d : Nat) :
    p.firstKey? c (locate off t) d = p.firstKey? c (locate off (l :: t)) (d + 1) := by
  have hmem : T.Mem (l :: t) := ⟨ht, by rw [hk]; exact List.mem_cons_self⟩
  have hm : p.offsetOf c (locate off t) ^^^ l.toNat = locate off (l :: t) := by
    rw [h.offsetOf_eq ht (.inr (by rw [hk]; simp))]
    rfl
  have hchild := h.child_eq hmem
  rw [Outline.chain_cons] at hchild
  have hlabel := h.firstLabel_eq ht
  have hlabel' := h.firstLabel_eq hmem
  rw [hk, List.headD_cons] at hlabel
  have hne : locate off (l :: t) ≠ 0 := fun h0 => by simpa using h.locate_eq_zero hmem h0
  -- the way is shorter than the capacity, so one step more or less does not matter
  obtain ⟨n, hn⟩ : ∃ n, p.capacity = n + 1 :=
    Nat.exists_eq_succ_of_ne_zero (by have := h.length_lt_size ht; have := h.draws.kept.size_le; omega)
  have hdown : p.descend c p.capacity l (locate off t) d =
      p.descend c p.capacity ((T.kids (l :: t)).headD 0) (locate off (l :: t)) (d + 1) := by
    rw [hn, h.descend_succ hmem fun u hu => ?_]
    · conv => lhs; unfold descend
      rw [if_neg hl]
      dsimp only
      rw [hm, hchild]
    · have hu := h.length_lt_size hu
      have hsize := h.draws.kept.size_le
      omega
  unfold firstKey?
  dsimp only
  rw [hlabel, hlabel', if_neg fun hc => hl hc.2, if_neg fun hc => hne hc.1, hdown]

/-! ### From key to key -/

/-- Where the next label is that of a child, the next key is the first one below it. -/
theorem resume_child (h : p.Lays c T off) (hst : s <:+ t) (ht : T.Mem t) (hl0 : l ≠ 0)
    (hl : l ∈ T.kids t) : p.resume c (locate off s) (t.length - s.length) l (locate off t) =
      p.firstKey? c (locate off (l :: t)) ((l :: t).length - s.length) := by
  have hdepth : (l :: t).length - s.length = t.length - s.length + 1 := by
    have := hst.length_le
    rw [List.length_cons]
    omega
  rw [resume_of_ne hl0, h.offsetOf_eq ht (.inr (List.ne_nil_of_mem hl)), ← locate_cons, hdepth]

/-- After the keys below a child come those below its siblings. -/
theorem resume_sibling (h : p.Lays c T off) (hst : s <:+ t) (ht : T.Mem t) (hl : l ∈ T.kids t)
    {pre post : List UInt8} (hchain : T.chain t = pre ++ l :: post) :
    p.resume c (locate off s) ((l :: t).length - s.length) 0 (locate off (l :: t)) =
      p.resume c (locate off s) (t.length - s.length) (post.headD 0) (locate off t) := by
  have hmem : T.Mem (l :: t) := ⟨ht, hl⟩
  have hlen := hst.length_le
  have hdepth : (l :: t).length - s.length = t.length - s.length + 1 := by
    rw [List.length_cons]
    omega
  have hroot : locate off (l :: t) ≠ locate off s := by
    intro heq
    obtain rfl := h.locate_inj hmem (Outline.mem_of_suffix ht hst) heq
    simp at hlen
  have hsibling := h.links_chain ht l (Outline.mem_chain_of_mem hl)
  rw [← ((h.sound.isLabels_chain t).of_split hchain).2, ← locate_cons] at hsibling
  rw [hdepth, resume_succ hroot, hsibling, h.check_cons hmem, Int.toNat_natCast]

/-- The keys below some children of a node are visited one child after the other. -/
theorem visits_children (h : p.Lays c T off) (hst : s <:+ t) (ht : T.Mem t)
    {pre ls post : List UInt8} (hchain : T.chain t = pre ++ (ls ++ post)) (h0 : 0 ∉ ls)
    (hbelow : ∀ l ∈ ls, Visits c p (locate off s)
      (p.firstKey? c (locate off (l :: t)) ((l :: t).length - s.length))
      ((T.listing c n (l :: t)).map (T.cursor c off s))
      (p.resume c (locate off s) ((l :: t).length - s.length) 0 (locate off (l :: t)))) :
    Visits c p (locate off s)
      (p.resume c (locate off s) (t.length - s.length) ((ls ++ post).headD 0) (locate off t))
      ((ls.flatMap fun l => T.listing c n (l :: t)).map (T.cursor c off s))
      (p.resume c (locate off s) (t.length - s.length) (post.headD 0) (locate off t)) := by
  induction ls generalizing pre with
  | nil => exact .refl _
  | cons l ls ih =>
    rw [List.mem_cons, not_or] at h0
    rw [List.forall_mem_cons] at hbelow
    have hl0 : l ≠ 0 := Ne.symm h0.1
    have hl : l ∈ T.kids t := Outline.mem_kids_of_mem_chain
      (by rw [hchain]; simp) (by rw [Outline.sib_eq_cons (.inr hl0)]; simp)
    rw [List.cons_append] at hchain
    have hfirst := hbelow.1
    rw [← h.resume_child hst ht hl0 hl, h.resume_sibling hst ht hl hchain] at hfirst
    have hrest := ih (show T.chain t = (pre ++ [l]) ++ (ls ++ post) by simp [hchain]) h0.2 hbelow.2
    rw [List.flatMap_cons, List.map_append]
    exact hfirst.trans hrest

/-- A cursor at a node goes on with its children that are no terminals. -/
theorem nextKey?_cursor (h : p.Lays c T off) (ht : T.Mem t) (hvalue : (T.value? c t).isSome) :
    p.nextKey? c (locate off s) (T.cursor c off s t) =
      p.resume c (locate off s) (t.length - s.length) (((T.kids t).filter (· ≠ 0)).headD 0)
        (locate off t) := by
  have hholds := h.holdsValue_base ht
  rw [nextKey?_eq]
  unfold Outline.cursor
  dsimp only
  by_cases hkid : 0 ∈ T.kids t
  · have hkids := List.ne_nil_of_mem hkid
    have hsibling := h.links_chain ht 0 (Outline.mem_chain_of_mem hkid)
    have hfirst : T.kids t = 0 :: (T.kids t).filter (· ≠ 0) :=
      ((h.sound.labels t).filter_eq.resolve_right fun hno => hno.1 hkid).2
    obtain ⟨l, q, rfl⟩ := List.exists_cons_of_ne_nil fun ht0 : t = [] =>
      h.sound.root (ht0 ▸ hkid)
    rw [Outline.chain_cons, hfirst, nextLabel_cons_self, UInt8.toNat_zero, Nat.xor_zero] at hsibling
    rw [if_neg fun hc => hkids (hholds.mp hc).2.1, h.offsetOf_eq ht (.inr hkids)]
    exact congrArg (p.resume c (locate off s) _ · _) hsibling
  · rw [Outline.value?, if_neg hkid] at hvalue
    obtain ⟨w, hw⟩ := Option.isSome_iff_exists.mp hvalue
    obtain ⟨-, hleaf, -⟩ := Outline.leafValue?_eq_some hw
    rw [h.leafValue?_eq ht] at hw
    split_ifs at hw with hbase
    rw [if_pos hbase.1, hleaf]
    rfl

/-- **From the first key at or below a node** the node itself is visited, if it has a value, and then
come the keys below its children that are no terminals. -/
theorem visits_self (h : p.Lays c T off) (hst : s <:+ t) (ht : T.Mem t)
    (hleaf : t ≠ [] → T.kids t = [] → ∃ v, T.leafValue? c t = some v) :
    Visits c p (locate off s) (p.firstKey? c (locate off t) (t.length - s.length))
      ((if (T.value? c t).isSome then [t] else []).map (T.cursor c off s))
      (p.resume c (locate off s) (t.length - s.length) (((T.kids t).filter (· ≠ 0)).headD 0)
        (locate off t)) := by
  cases hvalue : T.value? c t with
  | none =>
    have hkid : 0 ∉ T.kids t := by
      intro hkid
      rw [Outline.value?, if_pos hkid] at hvalue
      simp at hvalue
    have hfirst : p.firstKey? c (locate off t) (t.length - s.length) =
        p.resume c (locate off s) (t.length - s.length) ((T.kids t).headD 0) (locate off t) := by
      rcases hk : T.kids t with _ | ⟨l, ls⟩
      · -- a leaf without a value is the root of a trie without keys
        obtain rfl : t = [] := by
          by_contra hne
          obtain ⟨v, hv⟩ := hleaf hne hk
          rw [Outline.value?, if_neg hkid, hv] at hvalue
          simp at hvalue
        obtain rfl := List.suffix_nil.mp hst
        have hlabel := h.firstLabel_eq ht
        rw [hk, show locate off [] = 0 from rfl, if_pos rfl] at hlabel
        unfold firstKey?
        dsimp only
        rw [show locate off [] = 0 from rfl, if_pos rfl, hlabel, if_pos ⟨rfl, rfl⟩]
        rfl
      · have hl : l ∈ T.kids t := by rw [hk]; exact List.mem_cons_self
        have hl0 : l ≠ 0 := fun hzero => hkid (hzero ▸ hl)
        rw [List.headD_cons, h.resume_child hst ht hl0 hl, h.firstKey?_down ht hk hl0]
        congr 1
        have := hst.length_le
        rw [List.length_cons]
        omega
    rw [((h.sound.labels t).filter_eq.resolve_left fun hyes => hkid hyes.1).2, hfirst]
    exact .refl _
  | some w =>
    have hsome : (T.value? c t).isSome := by rw [hvalue]; rfl
    have hcursor : T.cursor c off s t = ⟨locate off t, t.length - s.length, Int32.ofInt w⟩ := by
      unfold Outline.cursor
      rw [hvalue]
      rfl
    have hend : (T.kids t).headD 0 = 0 := by
      by_cases hkid : 0 ∈ T.kids t
      · rw [((h.sound.labels t).filter_eq.resolve_right fun hno => hno.1 hkid).2]
        rfl
      · rw [Outline.value?, if_neg hkid] at hvalue
        rw [(Outline.leafValue?_eq_some hvalue).2.1]
        rfl
    have hne : t ≠ [] := by
      rintro rfl
      rw [Outline.value?, if_neg h.sound.root, Outline.leafValue?_of_root] at hvalue
      simp at hvalue
    rw [← h.nextKey?_cursor ht hsome, h.firstKey?_stop ht hne hend hvalue, ← hcursor]
    exact .step (.refl _)

/-- **The keys below a node are visited in the order of the listing**, and then comes what is after the
node. -/
theorem visits_listing (h : p.Lays c T off) (hst : s <:+ t) (ht : T.Mem t) (h0 : 0 ∉ t)
    (hfull : T.Full c t) (hn : ∀ u, T.Mem u → u.length < t.length + n) :
    Visits c p (locate off s) (p.firstKey? c (locate off t) (t.length - s.length))
      ((T.listing c n t).map (T.cursor c off s))
      (p.resume c (locate off s) (t.length - s.length) 0 (locate off t)) := by
  induction n generalizing t with
  | zero => exact absurd (hn t ht) (lt_irrefl _)
  | succ n ih =>
    obtain ⟨pre, hchain, hnot⟩ := h.sound.chain_eq_append t
    have hself := h.visits_self hst ht fun hne hkids => hfull t List.suffix_rfl ht h0 hne hkids
    have hchildren := h.visits_children (n := n) hst ht
      (show T.chain t = pre ++ ((T.kids t).filter (· ≠ 0) ++ []) by rwa [List.append_nil]) hnot
      fun l hl => by
        obtain ⟨hmem, hl0⟩ := Outline.mem_child ht h0 hl
        exact ih (hst.trans (List.suffix_cons l t)) hmem hl0
          (fun u hu => hfull u ((List.suffix_cons l t).trans hu))
          fun u hu => by have := hn u hu; rw [List.length_cons]; omega
    rw [List.append_nil] at hchildren
    unfold Outline.listing
    rw [List.map_append]
    exact hself.trans hchildren

/-- **Around a leaf without a value**: the keys before it are visited on the way to it, and the others
on the way from behind it. -/
theorem visits_around (h : p.Lays c T off) (hq : T.Mem q) (h0 : 0 ∉ q) (hkids : T.kids q = [])
    (hvalue : T.value? c q = none)
    (hfull : ∀ u, T.Mem u → 0 ∉ u → u ≠ [] → u ≠ q → T.kids u = [] → ∃ v, T.leafValue? c u = some v)
    (hst : s <:+ t) (htq : t <:+ q) (hn : ∀ u, T.Mem u → u.length < t.length + n) :
    ∃ us vs, T.listing c n t = us ++ vs ∧
      Visits c p (locate off s) (p.firstKey? c (locate off t) (t.length - s.length))
        (us.map (T.cursor c off s)) (p.firstKey? c (locate off q) (q.length - s.length)) ∧
      Visits c p (locate off s)
        (p.resume c (locate off s) (q.length - s.length) 0 (locate off q))
        (vs.map (T.cursor c off s))
        (p.resume c (locate off s) (t.length - s.length) 0 (locate off t)) := by
  induction n generalizing t with
  | zero => exact absurd (hn t (Outline.mem_of_suffix hq htq)) (lt_irrefl _)
  | succ n ih =>
    by_cases heq : t = q
    · subst heq
      refine ⟨[], [], ?_, .refl _, .refl _⟩
      rw [Outline.listing, hvalue, hkids]
      rfl
    -- the way down to the leaf goes through a child, and the leaf is not below its siblings
    obtain ⟨l, hlq⟩ := exists_cons_suffix htq heq
    have hmem : T.Mem (l :: t) := Outline.mem_of_suffix hq hlq
    have hl0 : l ≠ 0 := fun hl => h0 (hlq.subset (by rw [hl]; exact List.mem_cons_self))
    have ht := hmem.1
    have ht0 : 0 ∉ t := fun hzero => h0 (htq.subset hzero)
    obtain ⟨pre, hchain, hnot⟩ := h.sound.chain_eq_append t
    obtain ⟨ls, ls', hsplit⟩ := List.append_of_mem
      (List.mem_filter.mpr ⟨hmem.2, by simpa using hl0⟩ : l ∈ (T.kids t).filter (· ≠ 0))
    have hnodup := (h.sound.labels t).nodup.filter (· ≠ 0)
    rw [hsplit] at hchain hnot hnodup
    have hbelow : ∀ m ∈ (T.kids t).filter (· ≠ 0), m ≠ l → Visits c p (locate off s)
        (p.firstKey? c (locate off (m :: t)) ((m :: t).length - s.length))
        ((T.listing c n (m :: t)).map (T.cursor c off s))
        (p.resume c (locate off s) ((m :: t).length - s.length) 0 (locate off (m :: t))) := by
      intro m hm hml
      obtain ⟨hmem', hm0⟩ := Outline.mem_child ht ht0 hm
      refine h.visits_listing (hst.trans (List.suffix_cons m t)) hmem' hm0 (fun u hmu hu hu0 hne =>
        hfull u hu hu0 hne ?_) fun u hu => by have := hn u hu; rw [List.length_cons]; omega
      rintro rfl
      have hsame := List.suffix_of_suffix_length_le hmu hlq le_rfl
      exact hml (List.cons.inj (hsame.eq_of_length rfl)).1
    have hne : ∀ m ∈ ls ++ ls', m ≠ l := fun m hm hml =>
      (List.nodup_cons.mp (List.nodup_middle.mp hnodup)).1 (hml ▸ hm)
    obtain ⟨us, vs, hlisting, hto, hfrom⟩ := ih (hst.trans (List.suffix_cons l t)) hlq
      fun u hu => by have := hn u hu; rw [List.length_cons]; omega
    have hself := h.visits_self hst ht fun _ hnil => absurd hmem.2 (by simp [hnil])
    have hbefore := h.visits_children (n := n) hst ht hchain
      (fun hzero => hnot (List.mem_append_left _ hzero)) fun m hm =>
        hbelow m (by rw [hsplit]; simp [hm]) (hne m (List.mem_append_left _ hm))
    have hafter := h.visits_children (n := n) hst ht
      (show T.chain t = (pre ++ ls ++ [l]) ++ (ls' ++ []) by simp [hchain])
      (fun hzero => hnot (by simp [hzero])) fun m hm =>
        hbelow m (by rw [hsplit]; simp [hm]) (hne m (List.mem_append_right _ hm))
    have hbehind := h.resume_sibling hst ht hmem.2
      (show T.chain t = (pre ++ ls) ++ l :: ls' by simp [hchain])
    rw [hsplit] at hself
    rw [List.headD_cons, h.resume_child hst ht hl0 hmem.2] at hbefore
    rw [List.append_nil, ← hbehind] at hafter
    refine ⟨(if (T.value? c t).isSome then [t] else []) ++
      (ls.flatMap (fun l => T.listing c n (l :: t)) ++ us),
      vs ++ ls'.flatMap (fun l => T.listing c n (l :: t)), ?_, ?_, ?_⟩
    · rw [Outline.listing, hsplit, List.flatMap_append, List.flatMap_cons, hlisting]
      simp only [List.append_assoc]
    · rw [List.map_append, List.map_append]
      exact hself.trans (hbefore.trans hto)
    · rw [List.map_append]
      exact hfrom.trans hafter

end Lays

end Pool

end DoubleArrayTrie
