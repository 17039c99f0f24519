import DoubleArrayTrie.Proofs.Enumeration
import DoubleArrayTrie.Proofs.Programs.Storing

/-!
# Programs that search a trie

A cursor goes down from nodes to their first children and up to their parents, and it reads a value
where it stops. It stops at nodes with a value only, and on its way up it comes to the node where it
started before its depth is used up.

* `Program.run_drain`: what every step of a search keeps, the whole search keeps.
* `Pool.Lays.run_nextKey?`: from key to key.
* `Trie.run_predict`, `Trie.run_commonPrefixes`, `Trie.run_scan`: searches run without a fault.
* `Trie.Spelled.run`: the bytes of what they find are read off the nodes.
-/

namespace DoubleArrayTrie

/-! ### The programs -/

namespace Program

variable {σ α : Type}

/-- A depth on the next level. No way down is as long as there may be slots. -/
def deeper (depth : Nat) : Program Nat :=
  if depth < Access.maxCapacity then pure (depth + 1) else fault

/-- Faults unless the way down has fewer than so many nodes. -/
def descend (e : Encoding) : Nat → UInt8 → Nat → Nat → Program (Nat × Nat)
  | 0, _, _, _ => fault
  | fuel + 1, l, n, depth =>
      if l = 0 then pure (n, depth)
      else do
        let k ← offsetOf e n
        let s ← slot (k ^^^ l.toNat)
        let depth ← deeper depth
        descend e fuel s.child (k ^^^ l.toNat) depth

def firstLabel (e : Encoding) (n : Nat) (child : UInt8) : Program UInt8 :=
  if n = 0 then do
    let k ← offsetOf e 0
    let s ← slot (k ^^^ child.toNat)
    pure s.sibling
  else pure child

def firstKey? (e : Encoding) (n depth : Nat) : Program (Option Cursor) := do
  let s ← slot n
  let l ← firstLabel e n s.child
  if n = 0 ∧ l = 0 then pure none
  else do
    let fuel ← size
    let (m, depth) ← descend e fuel l n depth
    let v ← valueSlot e m
    let t ← slot v
    pure (some ⟨m, depth, Int32.ofInt t.base⟩)

/-- Faults unless the way up comes to the node where the search started. -/
def climb (root : Nat) : Nat → UInt8 → Nat → Program (Option (UInt8 × Nat × Nat))
  | 0, l, n =>
      if l ≠ 0 then pure (some (l, n, 0)) else if n = root then pure none else fault
  | depth + 1, l, n =>
      if l ≠ 0 then pure (some (l, n, depth + 1))
      else if n = root then pure none
      else do
        let s ← slot n
        let m ← index s.check
        climb root depth s.sibling m

/-- The first label after that of the terminal of a node, if it has one. -/
def laterLabel (e : Encoding) (n : Nat) : Program UInt8 := do
  let s ← slot n
  if e.holdsValue s.base then pure 0
  else do
    let k ← offsetOf e n
    let t ← slot k
    pure t.sibling

def nextKey? (e : Encoding) (root : Nat) (k : Cursor) : Program (Option Cursor) := do
  let l ← laterLabel e k.node
  let up? ← climb root k.depth l k.node
  match up? with
  | none => pure none
  | some (l, m, depth) => do
      let o ← offsetOf e m
      let depth ← deeper depth
      firstKey? e (o ^^^ l.toNat) depth

/-- The answers of a search, at most so many. -/
def drain (next : σ → Program (Option α × σ)) : Nat → σ → Program (List α)
  | 0, _ => pure []
  | n + 1, s => do
      let (a?, s) ← next s
      match a? with
      | none => pure []
      | some a => do
          let as ← drain next n s
          pure (a :: as)

def predictor (e : Encoding) (stem : Key) : Program Predictor := do
  let n? ← walk e 0 stem
  match n? with
  | none => pure ⟨0, none⟩
  | some n => do
      let _ ← valueAt e n
      let k? ← firstKey? e n 0
      pure ⟨n, k?⟩

def nextMatch (e : Encoding) (s : Predictor) : Program (Option Match × Predictor) :=
  match s.cursor with
  | none => pure (none, s)
  | some k => do
      let k? ← nextKey? e s.root k
      pure (some ⟨k.value, k.depth, k.node⟩, { s with cursor := k? })

def predict (e : Encoding) (stem : Key) : Program (List Match) := do
  let s ← predictor e stem
  let n ← size
  drain (nextMatch e) (n + 1) s

def get? (e : Encoding) (key : Key) : Program (Option Match) := do
  let n? ← walk e 0 key
  match n? with
  | none => pure none
  | some n => do
      let answer ← valueAt e n
      pure (answer.value?.map fun v => ⟨v, key.length, n⟩)

def advance (e : Encoding) (node length : Nat) : Key → Program (Option Match × PrefixSearch)
  | [] => pure (none, ⟨node, length, []⟩)
  | label :: rest => do
      let n? ← child? e node label
      match n? with
      | none => pure (none, ⟨node, length, []⟩)
      | some n => do
          let answer ← valueAt e n
          match answer with
          | .found v => pure (some ⟨v, length + 1, n⟩, ⟨n, length + 1, rest⟩)
          | _ => advance e n (length + 1) rest

def nextPrefix (e : Encoding) (s : PrefixSearch) : Program (Option Match × PrefixSearch) :=
  advance e s.node s.length s.rest

def commonPrefixes (e : Encoding) (key : Key) : Program (List Match) :=
  drain (nextPrefix e) key.length (.start key)

def restart (e : Encoding) (start : Nat) : Key → Program (Option TextMatch × Scanner)
  | [] => pure (none, ⟨start, [], .start []⟩)
  | byte :: text => do
      let (m?, here) ← nextPrefix e (.start (byte :: text))
      match m? with
      | some m => pure (some ⟨start, start + m.length, m.value⟩, ⟨start, byte :: text, here⟩)
      | none => restart e (start + 1) text

def nextPlace (e : Encoding) (s : Scanner) : Program (Option TextMatch × Scanner) := do
  let (m?, here) ← nextPrefix e s.here
  match m? with
  | some m => pure (some ⟨s.start, s.start + m.length, m.value⟩, { s with here })
  | none =>
      match s.text with
      | [] => pure (none, { s with here })
      | _ :: text => restart e (s.start + 1) text

def scan (e : Encoding) (text : Key) : Program (List TextMatch) :=
  drain (nextPlace e) (text.length * text.length) (.ofText text)

/-- Faults if the way up is shorter. -/
def suffixOnto (e : Encoding) : Nat → Nat → Key → Program Key
  | 0, _, bytes => pure bytes
  | n + 1, node, bytes => do
      require (0 < node)
      let s ← slot node
      let m ← index s.check
      let t ← slot m
      let k ← offset e t.base
      suffixOnto e n m ((Pool.lowByte k ^^^ Pool.lowByte node) :: bytes)

def suffix (e : Encoding) (node length : Nat) : Program Key := suffixOnto e length node []

/-- The keys of matches, with their values. -/
def spell (e : Encoding) : List Match → Program (List (Key × Int32))
  | [] => pure []
  | m :: ms => do
      let key ← suffix e m.node m.length
      let entries ← spell e ms
      pure ((key, m.value) :: entries)

def entries (e : Encoding) : Program (List (Key × Int32)) := do
  let ms ← predict e []
  spell e ms

theorem climb_of_ne {root d n : Nat} {l : UInt8} (hl : l ≠ 0) :
    climb root d l n = pure (some (l, n, d)) := by
  cases d with
  | zero => exact if_pos hl
  | succ d => exact if_pos hl

theorem climb_self (root d : Nat) : climb root d 0 root = pure none := by
  cases d with
  | zero => exact (if_neg (by simp)).trans (if_pos rfl)
  | succ d => exact (if_neg (by simp)).trans (if_pos rfl)

/-- **What every step of a search keeps**, the search keeps, and what every step says of its answer is
so for all answers. -/
theorem run_drain {c : Config} {p : Pool} {next : σ → Program (Option α × σ)}
    {f : σ → Option α × σ} {I : σ → Prop} {J : α → Prop}
    (hstep : ∀ s, I s → (next s).run c p = some (p, f s) ∧ (∀ a, (f s).1 = some a → J a) ∧ I (f s).2)
    {s : σ} (hs : I s) (n : Nat) :
    (drain next n s).run c p = some (p, DoubleArrayTrie.drain f n s) ∧
      ∀ a ∈ DoubleArrayTrie.drain f n s, J a := by
  induction n generalizing s with
  | zero => exact ⟨rfl, fun a ha => by simp [DoubleArrayTrie.drain] at ha⟩
  | succ n ih =>
    obtain ⟨hrun, hanswer, hkept⟩ := hstep s hs
    unfold drain DoubleArrayTrie.drain
    rw [run_bind_of hrun]
    generalize f s = x at hanswer hkept
    obtain ⟨a?, s'⟩ := x
    cases a? with
    | none => exact ⟨rfl, fun a ha => by simp at ha⟩
    | some a =>
      obtain ⟨hrest, hanswers⟩ := ih hkept
      dsimp only
      rw [run_bind_of hrest]
      refine ⟨rfl, fun b hb => ?_⟩
      rcases List.mem_cons.mp hb with rfl | hb
      · exact hanswer b rfl
      · exact hanswers b hb

end Program

/-- A label that comes after another in a chain is one of the chain. -/
theorem nextLabel_mem {l : UInt8} {ls : List UInt8} (h : nextLabel l ls ≠ 0) : nextLabel l ls ∈ ls := by
  induction ls with
  | nil => exact absurd rfl h
  | cons a ls ih =>
    unfold nextLabel at h ⊢
    split_ifs at h ⊢
    · rcases ls with _ | ⟨b, ls⟩
      · exact absurd rfl h
      · simp
    · exact List.mem_cons_of_mem a (ih h)

namespace Pool

theorem climb_of_ne {p : Pool} {root d n : Nat} {l : UInt8} (hl : l ≠ 0) :
    p.climb root d l n = some (l, n, d) := by
  cases d with
  | zero => exact if_pos hl
  | succ d => exact if_pos hl

theorem climb_self (p : Pool) (root d : Nat) : p.climb root d 0 root = none := by
  cases d with
  | zero => exact if_neg (by simp)
  | succ d => exact (if_neg (by simp)).trans (if_pos rfl)

end Pool

namespace Pool.Lays

variable {c : Config} {p : Pool} {T : Outline} {off : Trail → Nat} {s t : Trail} {l : UInt8}
  {d m n : Nat} {M : Trail → Option Int32} {k : Cursor}

/-! ### From key to key -/

/-- The cursor is at a node with a value at or below node `s`. -/
def At (c : Config) (T : Outline) (off : Trail → Nat) (s : Trail) (k : Cursor) : Prop :=
  ∃ t, s <:+ t ∧ T.Mem t ∧ 0 ∉ t ∧ (T.value? c t).isSome ∧ k.node = locate off t ∧
    k.depth = t.length - s.length

/-- The way up from node `t`, whose next label is `l`, runs without a fault and leads to a child at or
below node `s`. -/
def Climbs (c : Config) (p : Pool) (T : Outline) (off : Trail → Nat) (s t : Trail) (l : UInt8) :
    Prop :=
  (Program.climb (locate off s) (t.length - s.length) l (locate off t)).run c p =
      some (p, p.climb (locate off s) (t.length - s.length) l (locate off t)) ∧
    ∀ m n d, p.climb (locate off s) (t.length - s.length) l (locate off t) = some (m, n, d) →
      ∃ q, s <:+ q ∧ T.Mem q ∧ 0 ∉ q ∧ m ≠ 0 ∧ m ∈ T.kids q ∧ n = locate off q ∧
        d = q.length - s.length

theorem Climbs.here (hst : s <:+ t) (ht : T.Mem t) (h0 : 0 ∉ t) (hl0 : l ≠ 0) (hl : l ∈ T.kids t) :
    Climbs c p T off s t l := by
  unfold Climbs
  rw [climb_of_ne hl0, Program.climb_of_ne hl0]
  refine ⟨rfl, fun m n d hmnd => ?_⟩
  obtain ⟨rfl, rfl, rfl⟩ : l = m ∧ locate off t = n ∧ t.length - s.length = d := by simpa using hmnd
  exact ⟨t, hst, ht, h0, hl0, hl, rfl, rfl⟩

theorem Climbs.root (c : Config) (p : Pool) (T : Outline) (off : Trail → Nat) (s : Trail) :
    Climbs c p T off s s 0 := by
  unfold Climbs
  rw [climb_self, Program.climb_self]
  exact ⟨rfl, fun m n d hmnd => by simp at hmnd⟩

section

variable (h : p.Lays c T off) (hready : p.Ready c)
include h hready

/-- There is room for the depth of a child. -/
theorem run_deeper (ht : T.Mem t) (hd : d ≤ t.length) :
    (Program.deeper d).run c p = some (p, d + 1) := by
  have hlen := h.length_lt_size ht
  have hsize := hready.size_le h.draws.kept
  rw [Program.deeper, if_pos (by omega)]
  rfl

/-- A way down ends at a node whose first child, if it has one, is a terminal. -/
theorem run_descend (ht : T.Mem t) (h0 : 0 ∉ t) (hn : ∀ u, T.Mem u → u.length < t.length + n)
    (hm : ∀ u, T.Mem u → u.length < t.length + m) (hd : d ≤ t.length) :
    ∃ u, t <:+ u ∧ T.Mem u ∧ 0 ∉ u ∧ (T.kids u).headD 0 = 0 ∧
      p.descend c m ((T.kids t).headD 0) (locate off t) d =
        (locate off u, d + (u.length - t.length)) ∧
      (Program.descend c.encoding n ((T.kids t).headD 0) (locate off t) d).run c p =
        some (p, locate off u, d + (u.length - t.length)) := by
  induction n generalizing t d m with
  | zero => exact absurd (hn t ht) (lt_irrefl _)
  | succ n ih =>
    obtain ⟨m, rfl⟩ : ∃ j, m = j + 1 := ⟨m - 1, by have := hm t ht; omega⟩
    unfold descend Program.descend
    by_cases hl : (T.kids t).headD 0 = 0
    · rw [if_pos hl, if_pos hl]
      refine ⟨t, List.suffix_rfl, ht, h0, hl, ?_, ?_⟩
      · rw [Nat.sub_self]
        rfl
      · rw [Nat.sub_self]
        rfl
    obtain ⟨l, ls, hk⟩ : ∃ l ls, T.kids t = l :: ls :=
      List.exists_cons_of_ne_nil fun hnil => hl (by rw [hnil]; rfl)
    rw [hk, List.headD_cons] at hl ⊢
    have hkid : l ∈ T.kids t := by rw [hk]; exact List.mem_cons_self
    have hmem : T.Mem (l :: t) := ⟨ht, hkid⟩
    have hlt := h.draws.lt_size hmem
    obtain ⟨u, hsuffix, hu, hu0, hend, hdown, hrun⟩ := ih (m := m) (d := d + 1) hmem
      (by rw [List.mem_cons, not_or]; exact ⟨Ne.symm hl, h0⟩)
      (fun u hu => by have := hn u hu; rw [List.length_cons]; omega)
      (fun u hu => by have := hm u hu; rw [List.length_cons]; omega) (by rw [List.length_cons]; omega)
    have hlen : d + 1 + (u.length - (l :: t).length) = d + (u.length - t.length) := by
      have hle := hsuffix.length_le
      rw [List.length_cons] at hle ⊢
      omega
    have hchild := h.child_eq hmem
    rw [Outline.chain_cons] at hchild
    rw [hlen] at hdown hrun
    refine ⟨u, (List.suffix_cons l t).trans hsuffix, hu, hu0, hend, ?_, ?_⟩
    · rw [if_neg hl, h.offsetOf_eq ht (.inr (List.ne_nil_of_mem hkid))]
      dsimp only
      rw [← locate_cons, hchild]
      exact hdown
    · rw [if_neg hl]
      refine (Program.run_bind_of
        (h.run_offsetOf hready ht (.inr (List.ne_nil_of_mem hkid)))).trans ?_
      rw [← locate_cons, Program.run_bind_of (Program.run_slot hlt), hchild]
      exact (Program.run_bind_of (h.run_deeper hready ht hd)).trans hrun

/-- The label of the first child of a node is read off the node, but for the root off the slot of the
label `0`. -/
theorem run_firstLabel (ht : T.Mem t) :
    (Program.firstLabel c.encoding (locate off t) (p.slot (locate off t)).child).run c p =
      some (p, (T.kids t).headD 0) := by
  have hlabel := h.firstLabel_eq ht
  unfold Program.firstLabel
  by_cases hroot : locate off t = 0
  · obtain rfl := h.locate_eq_zero ht hroot
    rw [if_pos hroot] at hlabel
    rw [if_pos hroot]
    have hoff := h.run_offsetOf hready (t := []) trivial (.inl rfl)
    have hzero := h.offsetOf_eq (t := []) trivial (.inl rfl)
    rw [hroot] at hlabel hoff hzero ⊢
    rw [hzero] at hlabel
    rw [Program.run_bind_of hoff, Program.run_bind_of
      (Program.run_slot (h.xor_lt (t := []) trivial (.inl rfl) _)), hlabel]
    rfl
  · rw [if_neg hroot] at hlabel
    rw [if_neg hroot, hlabel]
    rfl

/-- **The way down to the first key** runs without a fault, and ends at a node with a value. -/
theorem run_firstKey? (hM : T.Holds c [] M) (hst : s <:+ t) (ht : T.Mem t) (h0 : 0 ∉ t) :
    (Program.firstKey? c.encoding (locate off t) (t.length - s.length)).run c p =
        some (p, p.firstKey? c (locate off t) (t.length - s.length)) ∧
      ∀ k, p.firstKey? c (locate off t) (t.length - s.length) = some k → At c T off s k := by
  have hlabel := h.firstLabel_eq ht
  have hlength : s.length ≤ t.length := hst.length_le
  unfold Program.firstKey? Pool.firstKey?
  dsimp only
  rw [hlabel, Program.run_bind_of (Program.run_slot (h.draws.lt_size ht)),
    Program.run_bind_of (h.run_firstLabel hready ht)]
  by_cases hnone : locate off t = 0 ∧ (T.kids t).headD 0 = 0
  · rw [if_pos hnone, if_pos hnone]
    exact ⟨rfl, fun k hk => by simp at hk⟩
  rw [if_neg hnone, if_neg hnone, Program.run_bind_of Program.run_size]
  obtain ⟨u, hsuffix, hu, hu0, hend, hdown, hrun⟩ := h.run_descend hready (n := p.size)
    (m := p.capacity) (d := t.length - s.length) ht h0
    (fun u hu => (h.length_lt_size hu).trans_le (Nat.le_add_left ..))
    (fun u hu => ((h.length_lt_size hu).trans_le h.draws.kept.size_le).trans_le
      (Nat.le_add_left ..)) (Nat.sub_le ..)
  -- at the root the search has stopped if there is no child
  have hroot : u = [] → T.kids u ≠ [] := by
    rintro rfl
    rw [List.suffix_nil.mp hsuffix] at hnone
    exact fun hnil => hnone ⟨rfl, hend⟩
  obtain ⟨w, hw⟩ := hM.exists_value? hu hu0 hend hroot
  obtain ⟨v, hslot, hv, -⟩ := h.exists_valueSlot hu hw
  have hvalue := h.run_valueSlot hready hu hw
  have hread := Program.run_slot (c := c) (h.draws.lt_size hv)
  rw [← hslot] at hread
  have hdepth := hsuffix.length_le
  rw [hdown, Program.run_bind_of hrun]
  dsimp only
  rw [Program.run_bind_of hvalue, Program.run_bind_of hread]
  refine ⟨rfl, ?_⟩
  rintro k hk
  obtain rfl := Option.some.inj hk
  refine ⟨u, hst.trans hsuffix, hu, hu0, by rw [hw]; rfl, rfl, ?_⟩
  dsimp only
  omega

omit hready in
/-- **The way up to the next label** runs without a fault, also where there is none. -/
theorem run_climb (hst : s <:+ t) (ht : T.Mem t) (h0 : 0 ∉ t) (hl : l ≠ 0 → l ∈ T.kids t) :
    Climbs c p T off s t l := by
  induction t generalizing l with
  | nil =>
    by_cases hl0 : l ≠ 0
    · exact .here hst ht h0 hl0 (hl hl0)
    · obtain rfl := not_not.mp hl0
      obtain rfl := List.suffix_nil.mp hst
      exact .root c p T off []
  | cons a q ih =>
    by_cases hl0 : l ≠ 0
    · exact .here hst ht h0 hl0 (hl hl0)
    obtain rfl := not_not.mp hl0
    rcases List.suffix_cons_iff.mp hst with rfl | hsq
    · exact .root c p T off _
    have hroot : locate off (a :: q) ≠ locate off s := by
      intro heq
      have hlen := hsq.length_le
      rw [← h.locate_inj ht (Outline.mem_of_suffix ht hst) heq, List.length_cons] at hlen
      omega
    have hdepth : (a :: q).length - s.length = q.length - s.length + 1 := by
      have hlen := hsq.length_le
      rw [List.length_cons]
      omega
    have hsibling : (p.slot (locate off (a :: q))).sibling = nextLabel a (T.kids q) := by
      rw [h.slot_eq ht]
      rfl
    obtain ⟨hrun, hup⟩ := ih (l := nextLabel a (T.kids q)) hsq ht.1
      (fun hmem => h0 (List.mem_cons_of_mem a hmem)) (fun hne => nextLabel_mem hne)
    have hcheck := h.check_cons ht
    have hindex := Program.run_index (c := c) (p := p) (Int.natCast_nonneg (locate off q))
    unfold Climbs
    rw [hdepth]
    unfold Program.climb climb
    rw [if_neg hl0, if_neg hroot, if_neg hl0, if_neg hroot,
      Program.run_bind_of (Program.run_slot (h.draws.lt_size ht)), hsibling, hcheck,
      Program.run_bind_of hindex, Int.toNat_natCast]
    exact ⟨hrun, hup⟩

/-- After the value of a node comes the sibling of its terminal, if the value is there. -/
theorem run_laterLabel (ht : T.Mem t) (hvalue : (T.value? c t).isSome) :
    ∃ l, (l ≠ 0 → l ∈ T.kids t) ∧
      (Program.laterLabel c.encoding (locate off t)).run c p = some (p, l) ∧
      (if c.encoding.holdsValue (p.slot (locate off t)).base then 0
        else (p.slot (p.offsetOf c (locate off t))).sibling) = l := by
  unfold Program.laterLabel
  rw [Program.run_bind_of (Program.run_slot (h.draws.lt_size ht))]
  by_cases hholds : c.encoding.holdsValue (p.slot (locate off t)).base = true
  · rw [if_pos hholds, if_pos hholds]
    exact ⟨0, fun hne => absurd rfl hne, rfl, rfl⟩
  -- the value is that of a terminal
  have hkid : 0 ∈ T.kids t := by
    by_contra hkid
    rw [Outline.value?, if_neg hkid, h.leafValue?_eq ht, if_neg fun hc => hholds hc.1] at hvalue
    simp at hvalue
  have hkids : t = [] ∨ T.kids t ≠ [] := .inr (List.ne_nil_of_mem hkid)
  have hslot : off t = locate off (0 :: t) := (Nat.xor_zero _).symm
  have hsibling : (p.slot (off t)).sibling = nextLabel 0 (T.kids t) := by
    rw [hslot, h.slot_eq (t := 0 :: t) ⟨ht, hkid⟩]
    rfl
  rw [if_neg hholds, if_neg hholds, Program.run_bind_of (h.run_offsetOf hready ht hkids),
    Program.run_bind_of (Program.run_slot (h.off_lt_size ht hkids)), h.offsetOf_eq ht hkids,
    hsibling]
  exact ⟨_, fun hne => nextLabel_mem hne, rfl, rfl⟩

/-- **From key to key** there is no fault. -/
theorem run_nextKey? (hM : T.Holds c [] M) (hk : At c T off s k) :
    (Program.nextKey? c.encoding (locate off s) k).run c p =
        some (p, p.nextKey? c (locate off s) k) ∧
      ∀ k', p.nextKey? c (locate off s) k = some k' → At c T off s k' := by
  obtain ⟨n, d, value⟩ := k
  obtain ⟨t, hst, ht, h0, hvalue, rfl, rfl⟩ := hk
  obtain ⟨l, hl, hlater, hmodel⟩ := h.run_laterLabel hready ht hvalue
  obtain ⟨hclimb, hup⟩ := h.run_climb hst ht h0 hl
  unfold Program.nextKey? Pool.nextKey?
  dsimp only
  rw [hmodel, Program.run_bind_of hlater, Program.run_bind_of hclimb]
  cases hnext : p.climb (locate off s) (t.length - s.length) l (locate off t) with
  | none => exact ⟨rfl, fun k' hk' => by simp at hk'⟩
  | some next =>
    obtain ⟨m, n, d⟩ := next
    obtain ⟨q, hsq, hq, hq0, hm0, hm, rfl, rfl⟩ := hup m n d hnext
    have hkids : q = [] ∨ T.kids q ≠ [] := .inr (List.ne_nil_of_mem hm)
    have hlen := hsq.length_le
    have hdepth : q.length - s.length + 1 = (m :: q).length - s.length := by
      rw [List.length_cons]
      omega
    have hdeep := h.run_deeper hready hq (Nat.sub_le q.length s.length)
    dsimp only
    rw [Program.run_bind_of (h.run_offsetOf hready hq hkids), Program.run_bind_of hdeep,
      h.offsetOf_eq hq hkids, ← locate_cons, hdepth]
    refine h.run_firstKey? hready hM (hsq.trans (List.suffix_cons m q)) ⟨hq, hm⟩ ?_
    rw [List.mem_cons, not_or]
    exact ⟨Ne.symm hm0, hq0⟩

/-! ### Off the nodes -/

/-- **The labels on the way up from a node** are read without a fault. -/
theorem run_suffixOnto (hmem : T.Mem (t ++ s)) (bytes : Key) :
    (Program.suffixOnto c.encoding t.length (locate off (t ++ s)) bytes).run c p =
      some (p, t.reverse ++ bytes) := by
  induction t generalizing bytes with
  | nil => rfl
  | cons a t ih =>
    rw [List.cons_append] at hmem ⊢
    have hnode : 0 < locate off (a :: (t ++ s)) :=
      Nat.pos_of_ne_zero fun hzero => by simpa using h.locate_eq_zero hmem hzero
    have hparent : T.Mem (t ++ s) := hmem.1
    have ha : a ∈ T.kids (t ++ s) := hmem.2
    have hbase := h.base_of_kids hparent (.inr (List.ne_nil_of_mem ha))
    have hindex := Program.run_index (c := c) (p := p) (Int.natCast_nonneg (locate off (t ++ s)))
    have hoffset := run_offset (c := c) (p := p) (hready.word (locate off (t ++ s)))
    rw [hbase, Encoding.offset_ofOffset] at hoffset
    rw [List.length_cons, List.reverse_cons, List.append_assoc]
    unfold Program.suffixOnto
    rw [Program.run_bind_of (Program.run_require hnode),
      Program.run_bind_of (Program.run_slot (h.draws.lt_size hmem)), h.check_cons hmem,
      Program.run_bind_of hindex, Int.toNat_natCast,
      Program.run_bind_of (Program.run_slot (h.draws.lt_size hparent)), hbase,
      Program.run_bind_of hoffset, locate_cons, lowByte_xor_lowByte]
    exact ih hparent (a :: bytes)

end

end Pool.Lays

/-! ### Searches -/

namespace Trie

variable {t : Trie} {M : Entries} {T : Outline} {off : Trail → Nat}

/-- The bytes that the match counts are those of the node below another. -/
def Spelled (T : Outline) (off : Trail → Nat) (m : Match) : Prop :=
  ∃ u s : Trail, T.Mem (u ++ s) ∧ m.node = locate off (u ++ s) ∧ m.length = u.length

/-- A search along a byte string has come to the node of what it has behind it. -/
def Along (T : Outline) (off : Trail → Nat) (s : PrefixSearch) : Prop :=
  ∃ u, T.Mem u ∧ 0 ∉ u ∧ s.node = locate off u ∧ s.length = u.length

/-- A search below a node stands at a node with a value there. -/
def Below (c : Config) (T : Outline) (off : Trail → Nat) (s : Predictor) : Prop :=
  ∃ q, s.root = locate off q ∧ ∀ k, s.cursor = some k → Pool.Lays.At c T off q k

theorem Spelled.of_at {s : Trail} {k : Cursor} (hk : Pool.Lays.At t.config T off s k) :
    Spelled T off (matchAt k) := by
  obtain ⟨u, ⟨v, rfl⟩, hu, -, -, hnode, hdepth⟩ := hk
  refine ⟨v, s, hu, hnode, ?_⟩
  rw [List.length_append, Nat.add_sub_cancel] at hdepth
  exact hdepth

theorem Spelled.of_mem {u : Trail} (hu : T.Mem u) {m : Match} (hnode : m.node = locate off u)
    (hlength : m.length = u.length) : Spelled T off m :=
  ⟨u, [], by rwa [List.append_nil], by rwa [List.append_nil], hlength⟩

theorem Along.start (T : Outline) (off : Trail → Nat) (key : Key) : Along T off (.start key) :=
  ⟨[], trivial, by simp, rfl, rfl⟩

section

variable (h : t.pool.Lays t.config T off) (hready : t.pool.Ready t.config)
include h hready

/-- **The bytes of a match** are read without a fault. -/
theorem Spelled.run {m : Match} (hm : Spelled T off m) : ∃ bytes, t.suffixOf m = .ok bytes ∧
    (Program.suffix t.config.encoding m.node m.length).run t.config t.pool = some (t.pool, bytes) := by
  obtain ⟨value, length, node⟩ := m
  obtain ⟨u, s, hmem, rfl, rfl⟩ := hm
  refine ⟨u.reverse, h.suffix_eq hmem, ?_⟩
  have hrun := h.run_suffixOnto hready hmem []
  rwa [List.append_nil] at hrun

/-- The bytes of some matches are read with their values. -/
theorem run_spell {ms : List Match} (hms : ∀ m ∈ ms, Spelled T off m) :
    ∃ es, ms.mapM (fun m => (t.suffixOf m).map fun key => (key, m.value)) = .ok es ∧
      (Program.spell t.config.encoding ms).run t.config t.pool = some (t.pool, es) := by
  induction ms with
  | nil => exact ⟨[], rfl, rfl⟩
  | cons m ms ih =>
    obtain ⟨bytes, hbytes, hrun⟩ := Spelled.run h hready (hms m List.mem_cons_self)
    obtain ⟨es, hes, hrest⟩ := ih fun m hm => hms m (List.mem_cons_of_mem _ hm)
    refine ⟨(bytes, m.value) :: es, ?_, ?_⟩
    · rw [List.mapM_cons, hbytes, hes]
      rfl
    · unfold Program.spell
      rw [Program.run_bind_of hrun, Program.run_bind_of hrest]
      rfl

/-! #### Keys that begin with given bytes -/

variable (hholds : T.Holds t.config [] fun q => M.lookup q.reverse)

include hholds in
theorem run_predictor (stem : Key) :
    (Program.predictor t.config.encoding stem).run t.config t.pool =
        some (t.pool, t.predictor stem) ∧ Below t.config T off (t.predictor stem) := by
  unfold Program.predictor Trie.predictor
  rw [Program.run_bind_of (h.run_walk_root hready stem)]
  cases hn : t.pool.walk t.config 0 stem with
  | none => exact ⟨rfl, [], rfl, fun k hk => by simp at hk⟩
  | some n =>
    obtain ⟨h0, hmem, rfl⟩ := h.walk_root.mp hn
    rw [← List.mem_reverse] at h0
    have hfirst := h.run_firstKey? hready hholds List.suffix_rfl hmem h0
    rw [Nat.sub_self] at hfirst
    dsimp only
    rw [Program.run_bind_of (h.run_valueAt hready hmem h0), Program.run_bind_of hfirst.1]
    exact ⟨rfl, stem.reverse, rfl, hfirst.2⟩

include hholds in
theorem run_nextMatch {s : Predictor} (hs : Below t.config T off s) :
    (Program.nextMatch t.config.encoding s).run t.config t.pool = some (t.pool, s.next t) ∧
      (∀ m, (s.next t).1 = some m → Spelled T off m) ∧ Below t.config T off (s.next t).2 := by
  obtain ⟨root, cursor⟩ := s
  obtain ⟨q, rfl, hcursor⟩ := hs
  unfold Program.nextMatch Predictor.next
  dsimp only
  cases cursor with
  | none => exact ⟨rfl, fun m hm => by simp at hm, q, rfl, fun k hk => by simp at hk⟩
  | some k =>
    have hat := hcursor k rfl
    obtain ⟨hrun, hnext⟩ := h.run_nextKey? hready hholds hat
    dsimp only
    rw [Program.run_bind_of hrun]
    refine ⟨rfl, fun m hm => ?_, q, rfl, hnext⟩
    obtain rfl := Option.some.inj hm
    exact Spelled.of_at hat

include hholds in
/-- **The keys that begin with given bytes** are found without a fault, whatever the bytes are. -/
theorem run_predict (stem : Key) :
    (Program.predict t.config.encoding stem).run t.config t.pool =
        some (t.pool, t.predict stem) ∧ ∀ m ∈ t.predict stem, Spelled T off m := by
  obtain ⟨hpredictor, hbelow⟩ := run_predictor h hready hholds stem
  obtain ⟨hyields, rests, hcompletes, -⟩ := Shows.predict ⟨off, h, hholds⟩ stem
  -- there are not more keys than slots, so the search ends in time
  have hlength : (t.predict stem).length ≤ t.pool.size := by
    have hnodup : (rests.map fun rest => (stem ++ rest).reverse).Nodup :=
      hcompletes.nodup.map fun u v huv => List.append_cancel_left (List.reverse_injective huv)
    have hnodes := h.length_le_size hnodup fun u hu => ?_
    · rwa [hcompletes.bytes.length_eq, ← List.length_map]
    · obtain ⟨rest, hrest, rfl⟩ := List.mem_map.mp hu
      have hlookup : M.lookup (stem ++ rest).reverse.reverse ≠ none := by
        rw [List.reverse_reverse]
        exact mt Finmap.lookup_eq_none.mp (not_not.mpr ((hcompletes.mem rest).mp hrest))
      exact (hholds.mem _ (hholds.key _ hlookup).2).mpr (.inr ⟨_, List.suffix_rfl, hlookup⟩)
  have hdrain := hyields.drain_eq (n := t.pool.size + 1) (by omega)
  have hrun := Program.run_drain (fun s hs => run_nextMatch h hready hholds hs) hbelow
    (t.pool.size + 1)
  rw [hdrain] at hrun
  unfold Program.predict
  rw [Program.run_bind_of hpredictor, Program.run_bind_of Program.run_size]
  exact hrun

/-! #### Keys that given bytes begin with -/

/-- A stored key is looked up as a match. -/
theorem run_get? (key : Key) :
    (Program.get? t.config.encoding key).run t.config t.pool = some (t.pool, t.get? key) ∧
      ∀ m, t.get? key = some m → Spelled T off m := by
  unfold Program.get? Trie.get?
  rw [Program.run_bind_of (h.run_walk_root hready key)]
  cases hn : t.pool.walk t.config 0 key with
  | none => exact ⟨rfl, fun m hm => by simp at hm⟩
  | some n =>
    obtain ⟨h0, hmem, rfl⟩ := h.walk_root.mp hn
    rw [← List.mem_reverse] at h0
    dsimp only
    rw [Program.run_bind_of (h.run_valueAt hready hmem h0)]
    refine ⟨rfl, fun m hm => ?_⟩
    obtain ⟨v, -, rfl⟩ := Option.map_eq_some_iff.mp hm
    exact .of_mem hmem rfl (List.length_reverse ..).symm

theorem run_advance (key : Key) {u : Trail} (hu : T.Mem u) (h0 : 0 ∉ u) :
    (Program.advance t.config.encoding (locate off u) u.length key).run t.config t.pool =
        some (t.pool, PrefixSearch.advance t (locate off u) u.length key) ∧
      (∀ m, (PrefixSearch.advance t (locate off u) u.length key).1 = some m → Spelled T off m) ∧
      Along T off (PrefixSearch.advance t (locate off u) u.length key).2 := by
  induction key generalizing u with
  | nil => exact ⟨rfl, fun m hm => by simp [PrefixSearch.advance] at hm, u, hu, h0, rfl, rfl⟩
  | cons x key ih =>
    unfold Program.advance PrefixSearch.advance
    rw [Program.run_bind_of (h.run_child? hready hu h0 x), h.child?_eq hu h0]
    by_cases hx : x ≠ 0 ∧ x ∈ T.kids u
    · have hmem : T.Mem (x :: u) := ⟨hu, hx.2⟩
      have hx0 : 0 ∉ x :: u := by
        rw [List.mem_cons, not_or]
        exact ⟨Ne.symm hx.1, h0⟩
      rw [if_pos hx]
      dsimp only
      rw [Program.run_bind_of (h.run_valueAt hready hmem hx0)]
      cases t.pool.valueAt t.config (locate off (x :: u)) with
      | found v =>
        refine ⟨rfl, fun m hm => ?_, x :: u, hmem, hx0, rfl, rfl⟩
        obtain rfl := Option.some.inj hm
        exact .of_mem hmem rfl rfl
      | noValue => exact ih hmem hx0
      | absent => exact ih hmem hx0
    · rw [if_neg hx]
      exact ⟨rfl, fun m hm => by simp at hm, u, hu, h0, rfl, rfl⟩

theorem run_nextPrefix {s : PrefixSearch} (hs : Along T off s) :
    (Program.nextPrefix t.config.encoding s).run t.config t.pool = some (t.pool, s.next t) ∧
      (∀ m, (s.next t).1 = some m → Spelled T off m) ∧ Along T off (s.next t).2 := by
  obtain ⟨node, length, rest⟩ := s
  obtain ⟨u, hu, h0, rfl, rfl⟩ := hs
  exact run_advance h hready rest hu h0

/-- **The keys that given bytes begin with** are found without a fault, whatever the bytes are. -/
theorem run_commonPrefixes (key : Key) :
    (Program.commonPrefixes t.config.encoding key).run t.config t.pool =
        some (t.pool, t.commonPrefixes key) ∧ ∀ m ∈ t.commonPrefixes key, Spelled T off m :=
  Program.run_drain (fun _ hs => run_nextPrefix h hready hs) (Along.start T off key) key.length

/-! #### Keys inside a text -/

theorem run_restart (start : Nat) (text : Key) :
    (Program.restart t.config.encoding start text).run t.config t.pool =
        some (t.pool, Scanner.restart t start text) ∧
      Along T off (Scanner.restart t start text).2.here := by
  induction text generalizing start with
  | nil => exact ⟨rfl, Along.start T off []⟩
  | cons x text ih =>
    obtain ⟨hrun, -, halong⟩ := run_nextPrefix h hready (Along.start T off (x :: text))
    unfold Program.restart Scanner.restart
    rw [Program.run_bind_of hrun]
    generalize (PrefixSearch.start (x :: text)).next t = y at halong
    obtain ⟨m?, here⟩ := y
    cases m? with
    | some m => exact ⟨rfl, halong⟩
    | none => exact ih (start + 1)

theorem run_nextPlace {s : Scanner} (hs : Along T off s.here) :
    (Program.nextPlace t.config.encoding s).run t.config t.pool = some (t.pool, s.next t) ∧
      Along T off (s.next t).2.here := by
  obtain ⟨hrun, -, halong⟩ := run_nextPrefix h hready hs
  unfold Program.nextPlace Scanner.next
  rw [Program.run_bind_of hrun]
  generalize s.here.next t = y at halong
  obtain ⟨m?, here⟩ := y
  cases m? with
  | some m => exact ⟨rfl, halong⟩
  | none =>
    dsimp only
    cases s.text with
    | nil => exact ⟨rfl, halong⟩
    | cons x text => exact run_restart h hready (s.start + 1) text

/-- **The places of a text where a key stands** are found without a fault. -/
theorem run_scan (text : Key) :
    (Program.scan t.config.encoding text).run t.config t.pool = some (t.pool, t.scan text) :=
  (Program.run_drain (J := fun _ => True)
    (fun _ hs => ⟨(run_nextPlace h hready hs).1, fun _ _ => trivial, (run_nextPlace h hready hs).2⟩)
    (Along.start T off text) (text.length * text.length)).1

/-! #### All keys -/

include hholds in
/-- **All keys are read off** without a fault. -/
theorem run_entries : ∃ es, t.entries = .ok es ∧
    (Program.entries t.config.encoding).run t.config t.pool = some (t.pool, es) := by
  obtain ⟨hrun, hspelled⟩ := run_predict h hready hholds []
  obtain ⟨es, hes, hrest⟩ := run_spell h hready hspelled
  refine ⟨es, hes, ?_⟩
  unfold Program.entries
  rw [Program.run_bind_of hrun]
  exact hrest

end

end Trie

end DoubleArrayTrie
