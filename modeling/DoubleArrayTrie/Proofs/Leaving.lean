import DoubleArrayTrie.Proofs.Enumeration
import DoubleArrayTrie.Proofs.Image.Encodable
import DoubleArrayTrie.Proofs.Pool.Placing

/-!
# What growth leaves behind

When the arrays of a mapped pool grow, its slots and blocks move to the heap, and the file keeps what
it held of them at that moment, which is in the middle of storing a value. The slots that are left in
the file hold the entries from before, and nodes for the first bytes of the new key.

* `Pool.Leaves`: a pool is still mapped, or it has left slots with some property behind.
* `Pool.Midway`: a pool in the middle of storing a value.
* `Torn`: the slots of such a pool.
* `Trie.Holds.leaves_run`: what is left behind after calls that are about one key each.
-/

namespace DoubleArrayTrie

/-- Slots and blocks have moved to the heap, and the file keeps those that it had then. -/
def Backing.detached (slots : Array Slot) (blocks : Array Block) : Backing :=
  ⟨.left slots, .left slots, .left blocks, .mapped⟩

theorem Backing.detached_ne_mapped (slots : Array Slot) (blocks : Array Block) :
    detached slots blocks ≠ mapped := by
  simp [detached, mapped]

namespace Pool

variable {c : Config} {p : Pool} {S : Array Slot → Prop} {m n : Nat} {label : UInt8}

/-! ### Growth -/

/-- The pool is still mapped and has `m` slots, or it has left that many with a property behind. -/
def Leaves (m : Nat) (S : Array Slot → Prop) (p : Pool) : Prop :=
  (p.backing = .mapped ∧ p.capacity = m) ∨
    ∃ slots blocks, p.backing = .detached slots blocks ∧ slots.size = m ∧ S slots

/-- The parts that are enlarged leave the file first. -/
theorem backing_grow (c : Config) (p : Pool) : (p.grow c).backing =
    { p.backing with
      nodes := p.backing.nodes.leave p.slots
      links := p.backing.links.leave p.slots
      blocks := p.backing.blocks.leave p.blocks } := by
  obtain ⟨slots, blocks, rejects, fullHead, closedHead, openHead, size, ⟨hn, hl, hb, hr⟩, journal⟩ := p
  cases hn <;> cases hl <;> cases hb <;> rfl

theorem backing_grow_of_mapped (c : Config) (h : p.backing = .mapped) :
    (p.grow c).backing = .detached p.slots p.blocks := by
  rw [backing_grow, h]
  rfl

theorem backing_grow_of_detached {slots : Array Slot} {blocks : Array Block} (c : Config)
    (h : p.backing = .detached slots blocks) : (p.grow c).backing = .detached slots blocks := by
  rw [backing_grow, h]
  rfl

theorem writes_leaves (m : Nat) (S : Array Slot → Prop) :
    Writes fun p q => p = q ∧ p.Leaves m S :=
  writes_backing fun x n => (x = .mapped ∧ n = m) ∨
    ∃ slots blocks, x = .detached slots blocks ∧ slots.size = m ∧ S slots

/-- What was left behind stays there. -/
theorem lockstep_detached (c : Config) (slots : Array Slot) (blocks : Array Block) :
    Lockstep c fun p q => p = q ∧ p.backing = .detached slots blocks where
  toWrites := writes_backing fun x _ => x = .detached slots blocks
  grow h := ⟨congrArg _ h.1, backing_grow_of_detached c h.2⟩

/-! ### Room for children -/

section Mapped

variable (hbacking : p.backing = .mapped) (hS : S p.slots)

include hbacking hS

theorem leaves_addBlock : (p.addBlock c).1.Leaves p.capacity S := by
  unfold addBlock
  dsimp only
  refine ((writes_leaves p.capacity S).openBlock ⟨rfl, ?_⟩).2
  split_ifs
  · exact .inr ⟨p.slots, p.blocks, backing_grow_of_mapped c hbacking, rfl, hS⟩
  · exact .inl ⟨hbacking, rfl⟩

theorem leaves_placeOne : (p.placeOne c).1.Leaves p.capacity S := by
  unfold placeOne
  split_ifs
  · exact .inl ⟨hbacking, rfl⟩
  · exact .inl ⟨hbacking, rfl⟩
  · exact leaves_addBlock hbacking hS

/-- A search writes to no slot, so that growth after it leaves those from before. -/
theorem leaves_placeFor (labels : List UInt8) :
    (p.placeFor c labels).1.Leaves p.capacity S := by
  unfold placeFor
  split_ifs
  · exact leaves_addBlock hbacking hS
  · have hslots := slots_searchOpen c p labels (p.block p.openHead).prev p.visitBound p.openHead
    have hmapped := ((writes_backing fun x _ => x = .mapped).searchOpen (c := c) labels
      (p.block p.openHead).prev p.visitBound p.openHead ⟨rfl, hbacking⟩).1.2
    revert hslots hmapped
    generalize p.searchOpen c labels _ _ _ = x
    obtain ⟨q, found⟩ := x
    intro hslots hmapped
    have hcapacity : q.capacity = p.capacity := congrArg Array.size hslots
    cases found with
    | some e => exact .inl ⟨hmapped, hcapacity⟩
    | none =>
      rw [← hcapacity]
      exact leaves_addBlock (p := q.log _) hmapped (by rwa [← hslots] at hS)

theorem leaves_place (labels : List UInt8) : (p.place c labels).1.Leaves p.capacity S := by
  unfold place
  split
  · exact leaves_placeOne hbacking hS
  · exact leaves_placeOne hbacking hS
  · exact leaves_placeFor hbacking hS _

/-! ### Children -/

theorem leaves_relocate (r : Request) : (p.relocate c r).1.Leaves p.capacity S := by
  have hwrites := writes_leaves p.capacity S
  unfold relocate
  dsimp only
  split_ifs
  · have hplace := leaves_place (c := c) hbacking hS (insertLabel c.ordered r.label
      (p.chain r.node r.offset))
    exact (hwrites.moveWith (hwrites.setBase (hwrites.setChild ⟨rfl, hplace⟩ _ _) _ _) _ _ _ _ _).2
  · have hplace := leaves_place (c := c) hbacking hS (insertLabel c.ordered r.label
      (p.chain r.node r.offset))
    exact (hwrites.moveWith (hwrites.setBase ⟨rfl, hplace⟩ _ _) _ _ _ _ _).2
  · have hplace := leaves_place (c := c) hbacking hS (p.chain (p.slot r.slot).check.toNat
      (p.offsetOf c (p.slot r.slot).check.toNat))
    exact (hwrites.moveAway (hwrites.setBase ⟨rfl, hplace⟩ _ _) _ _ _ _ _).2

/-- **A child is made in one piece**: the slots that are left behind are those from before. -/
theorem leaves_ensureChild (n : Nat) (label : UInt8) :
    (p.ensureChild c n label).1.Leaves p.capacity S := by
  have hwrites := writes_leaves p.capacity S
  have hself : p.Leaves p.capacity S := .inl ⟨hbacking, rfl⟩
  unfold ensureChild
  split
  · have hplace := leaves_placeOne (c := c) hbacking hS
    generalize p.placeOne c = x at hplace ⊢
    obtain ⟨q, e⟩ := x
    dsimp only at hplace ⊢
    exact (hwrites.linkChild (hwrites.setBase (hwrites.occupy ⟨rfl, hplace⟩ _ _ _) _ _) _ _ _ _ _).2
  · dsimp only
    split_ifs
    · exact (hwrites.linkChild (hwrites.occupy ⟨rfl, hself⟩ _ _ _) _ _ _ _ _).2
    · exact hself
    · exact leaves_relocate hbacking hS _

end Mapped

/-- Nothing more is left behind once something was. -/
theorem Leaves.ensureChild (h : p.Leaves m S) (hS : S p.slots) (n : Nat) (label : UInt8) :
    (p.ensureChild c n label).1.Leaves m S := by
  rcases h with ⟨hbacking, rfl⟩ | ⟨slots, blocks, hbacking, hleft⟩
  · exact leaves_ensureChild hbacking hS n label
  · have hstay := (lockstep_detached c slots blocks).ensureChild ⟨rfl, hbacking⟩ n label
    exact .inr ⟨slots, blocks, hstay.1.2, hleft⟩

theorem Leaves.openLeaf (h : p.Leaves m S) (hS : S p.slots) (n : Nat) :
    (p.openLeaf c n).Leaves m S := by
  unfold Pool.openLeaf
  dsimp only
  split_ifs
  · exact ((writes_leaves m S).setBase ⟨rfl, h.ensureChild hS n 0⟩ _ _).2
  · exact h

end Pool

/-! ### In the middle of storing a value -/

namespace Outline

variable {c : Config} {T : Outline} {q : Trail} {x : UInt8}

theorem Words.graft (h : T.Words) (hT : T.Sound c) (hq : T.Mem q) (hx : x ∉ T.kids q) :
    (T.graft c q x).Words := by
  intro l u hmem hkids
  by_cases hnew : l :: u = x :: q
  · rw [hnew, word_graft_self]
    exact c.encoding.exists_fresh x
  · have hold := ((hT.mem_graft hq hx _).mp hmem).resolve_right hnew
    have hlu : l :: u ≠ q := by
      rintro rfl
      rw [kids_graft_self] at hkids
      exact insertLabel_ne_nil hkids
    rw [kids_graft_of_ne x hlu] at hkids
    rw [word_graft_of_ne hnew]
    exact h l u hold hkids

theorem Words.setWord {t : Trail} {v : Int32} (h : T.Words) : (T.setWord t v.toInt).Words := by
  intro l u hmem hkids
  by_cases ht : l :: u = t
  · rw [ht, word_setWord_self]
    exact ⟨v, rfl⟩
  · rw [word_setWord_of_ne ht]
    exact h l u (mem_setWord.mp hmem) hkids

theorem Words.openLeaf (h : T.Words) (hT : T.Sound c) (hq : T.Mem q) : (T.openLeaf c q).Words := by
  unfold Outline.openLeaf
  cases hleaf : T.leafValue? c q with
  | none => exact h
  | some w =>
    obtain ⟨hq0, hkids, rfl⟩ := leafValue?_eq_some hleaf
    obtain ⟨l, u, rfl⟩ := List.exists_cons_of_ne_nil hq0
    obtain ⟨v, hv⟩ := h l u hq hkids
    dsimp only
    rw [hv]
    exact (h.graft hT hq (by rw [hkids]; simp)).setWord

theorem Words.ensure (h : T.Words) (hT : T.Sound c) (hq : T.Mem q) : (T.ensure c q x).Words := by
  unfold Outline.ensure
  split_ifs with hx
  · exact h
  · exact h.graft hT hq hx

/-- If node `q` is a leaf without a value it has the word that it got when it was made. -/
def Fresh (c : Config) (T : Outline) (q : Trail) : Prop :=
  ∀ l u, q = l :: u → T.kids q = [] → T.leafValue? c q = none → T.word q = c.encoding.fresh l

theorem Fresh.openLeaf (h : T.Fresh c q) : (T.openLeaf c q).Fresh c q := by
  unfold Outline.openLeaf
  cases T.leafValue? c q with
  | none => exact h
  | some w =>
    intro l u _ hkids
    rw [kids_setWord, kids_graft_self] at hkids
    exact absurd hkids insertLabel_ne_nil

theorem Holds.fresh_ensure {M : Trail → Option Int32} (h : T.Holds c q M) (hq : T.Mem q) (hx : x ≠ 0)
    (h0 : 0 ∉ q) : (T.ensure c q x).Fresh c (x :: q) := by
  rintro l u heq hkids hnone
  obtain ⟨rfl, rfl⟩ := List.cons.inj heq
  unfold Outline.ensure at hkids hnone ⊢
  split_ifs at hkids hnone ⊢ with hmem
  · -- a node that was there before leads to a key
    have hx0 : 0 ∉ x :: q := by
      rw [List.mem_cons, not_or]
      exact ⟨Ne.symm hx, h0⟩
    have hnot : ¬ x :: q <:+ q := fun hsuffix => by simpa using hsuffix.length_le
    obtain ⟨v, hv⟩ := h.exists_leafValue_of_not (t := x :: q) ⟨hq, hmem⟩ hx0 hkids hnot
    rw [hv] at hnone
    simp at hnone
  · exact word_graft_self c T q x

end Outline

namespace Pool

variable {c : Config} {p : Pool} {M : Trail → Option Int32} {q : Trail} {m n : Nat} {x : UInt8}
  {key : Key}

/-- A pool in the middle of storing a value: it holds the entries `M`, and the nodes down to node `q`,
which is at slot `n` and has no use yet. -/
def Midway (c : Config) (p : Pool) (M : Trail → Option Int32) (q : Trail) (n : Nat) : Prop :=
  ∃ T off, p.Lays c T off ∧ T.Holds c q M ∧ T.Words ∧ T.Fresh c q ∧ T.Mem q ∧ 0 ∉ q ∧
    locate off q = n

namespace Midway

theorem openLeaf (h : p.Midway c M q n) : (p.openLeaf c n).Midway c M q n := by
  obtain ⟨T, off, hlays, hholds, hwords, hfresh, hq, h0, rfl⟩ := h
  obtain ⟨off', hopen, hself⟩ := hlays.openLeaf hq h0
  exact ⟨_, off', hopen, hholds.openLeaf hlays.sound hq h0, hwords.openLeaf hlays.sound hq,
    hfresh.openLeaf, (Outline.mem_openLeaf hlays.sound hq h0).mpr hq, h0, hself⟩

/-- One byte further down. -/
theorem step (h : p.Midway c M q n) (hx : x ≠ 0) :
    ((p.openLeaf c n).ensureChild c n x).1.Midway c M (x :: q)
      ((p.openLeaf c n).ensureChild c n x).2 := by
  obtain ⟨T, off, hlays, hholds, hwords, -, hq, h0, rfl⟩ := h
  obtain ⟨off', hopen, hself⟩ := hlays.openLeaf hq h0
  have hholds' := hholds.openLeaf hlays.sound hq h0
  have hq' := (Outline.mem_openLeaf hlays.sound hq h0).mpr hq
  obtain ⟨off'', hensure, hslot⟩ := hopen.ensureChild hq' (.inr hx) (Outline.ne_terminal h0)
  rw [hself] at hensure hslot
  refine ⟨_, off'', hensure, ?_, (hwords.openLeaf hlays.sound hq).ensure hopen.sound hq',
    hholds'.fresh_ensure hq' hx h0, Outline.mem_ensure_self hopen.sound hq' x, ?_, hslot.symm⟩
  · exact hholds'.ensure hopen.sound hq' (Outline.leafValue?_openLeaf c T q) hx h0
  · rw [List.mem_cons, not_or]
    exact ⟨Ne.symm hx, h0⟩

/-- All the way down. -/
theorem path (h : p.Midway c M q n) (hkey : 0 ∉ key) :
    (p.ensurePath c n key).1.Midway c M (key.reverse ++ q) (p.ensurePath c n key).2 := by
  induction key generalizing p q n with
  | nil => exact h
  | cons x key ih =>
    rw [List.mem_cons, not_or] at hkey
    have hrest := ih (h.step (Ne.symm hkey.1)) hkey.2
    rwa [List.reverse_cons, List.append_assoc]

/-- The children of the root have their places in block `0`, so that they need no room. -/
theorem leaves_root {S : Array Slot → Prop} (h : p.Midway c M [] 0) (hp : p.Leaves m S) (x : UInt8) :
    ((p.openLeaf c 0).ensureChild c 0 x).1.Leaves m S := by
  obtain ⟨T, off, hlays, -, -, -, hroot, -⟩ := h
  have hwrites := writes_leaves m S
  have hleaf := hlays.leafValue?_eq hroot
  have hoffset := hlays.offset?_base hroot (by simp)
  have hcheck := hlays.check_eq_iff hroot (.inl rfl) x
  rw [show locate off [] = 0 from rfl] at hleaf hoffset hcheck
  rw [if_pos (.inl rfl)] at hoffset
  have hopen : p.openLeaf c 0 = p := by
    unfold Pool.openLeaf
    refine if_neg fun hholds => ?_
    rw [Outline.leafValue?_of_root, if_pos hholds] at hleaf
    simp at hleaf
  rw [hopen]
  unfold Pool.ensureChild
  rw [hoffset]
  dsimp only
  split_ifs with hfree hchild
  · exact (hwrites.linkChild (hwrites.occupy ⟨rfl, hp⟩ _ _ _) _ _ _ _ _).2
  · exact hp
  · -- nobody else has children where the root has them
    exact absurd (hcheck.mpr (hlays.mem_kids_root (not_lt.mp hfree))) hchild

/-- The slots of a pool in the middle of storing a value, on the way to node `t`. -/
def Before (c : Config) (M : Trail → Option Int32) (t : Trail) (slots : Array Slot) : Prop :=
  ∃ p : Pool, ∃ q n, p.slots = slots ∧ q ≠ [] ∧ q <:+ t ∧ p.Midway c M q n

/-- **On the way down a key** slots are left behind only in the middle of it. -/
theorem leaves_path (h : p.Midway c M q n) (hq0 : q ≠ [])
    (hp : p.Leaves m (Before c M (key.reverse ++ q))) (hkey : 0 ∉ key) :
    (p.ensurePath c n key).1.Leaves m (Before c M (key.reverse ++ q)) := by
  induction key generalizing p q n with
  | nil => exact hp
  | cons x key ih =>
    rw [List.mem_cons, not_or] at hkey
    have hq : q <:+ (x :: key).reverse ++ q := List.suffix_append ..
    have hopen := hp.openLeaf (c := c) ⟨p, q, n, rfl, hq0, hq, h⟩ n
    have hchild := hopen.ensureChild (c := c) ⟨_, q, n, rfl, hq0, hq, h.openLeaf⟩ n x
    have htrail : (x :: key).reverse ++ q = key.reverse ++ x :: q := by simp
    rw [htrail] at hchild ⊢
    exact ih (h.step (Ne.symm hkey.1)) (by simp) hchild hkey.2

/-- **While a value is stored** slots are left behind only in the middle of its key. -/
theorem leaves_store (h : p.Midway c M [] 0) (hp : p.Leaves m (Before c M key.reverse))
    (hne : key ≠ []) (hkey : 0 ∉ key) (value : Int32) :
    (p.store c key value).1.Leaves m (Before c M key.reverse) := by
  have hpath : (p.ensurePath c 0 key).1.Leaves m (Before c M key.reverse) := by
    obtain ⟨x, rest, rfl⟩ := List.exists_cons_of_ne_nil hne
    rw [List.mem_cons, not_or] at hkey
    have hx : x ≠ 0 := Ne.symm hkey.1
    have hfirst := h.leaves_root hp x
    rw [List.reverse_cons] at hfirst ⊢
    exact (h.step hx).leaves_path (by simp) hfirst hkey.2
  have hmidway := h.path hkey
  rw [List.append_nil] at hmidway
  have hwrites := writes_leaves m (Before c M key.reverse)
  unfold Pool.store
  dsimp only
  split_ifs
  · exact (hwrites.setBase ⟨rfl, hpath⟩ _ _).2
  · have hbefore : Before c M key.reverse (p.ensurePath c 0 key).1.slots :=
      ⟨_, _, _, rfl, by simpa using hne, List.suffix_rfl, hmidway⟩
    exact (hwrites.setBase ⟨rfl, hpath.ensureChild hbefore (p.ensurePath c 0 key).2 0⟩ _ _).2

end Midway

end Pool

/-! ### Slots that were left behind -/

theorem Trie.Holds.midway {t : Trie} {M : Entries} (h : t.Holds M) :
    t.pool.Midway t.config (fun q => M.lookup q.reverse) [] 0 := by
  obtain ⟨T, off, hlays, hholds⟩ := h
  exact ⟨T, off, hlays, hholds, hholds.words hlays.sound, by simp [Outline.Fresh], trivial,
    by simp, rfl⟩

/-- The slots of a trie with the entries `M` in which a key was being stored: there are nodes for the
bytes `w`, which may have no use yet. -/
def Torn (c : Config) (M : Entries) (w : Key) (slots : Array Slot) : Prop :=
  ∃ p : Pool, ∃ n, p.slots = slots ∧ p.Midway c (fun q => M.lookup q.reverse) w.reverse n

namespace Torn

variable {c : Config} {M : Entries} {w key : Key} {slots : Array Slot}

theorem of_before (h : Pool.Midway.Before c (fun q => M.lookup q.reverse) key.reverse slots) :
    ∃ w, w ≠ [] ∧ w <+: key ∧ Torn c M w slots := by
  obtain ⟨p, q, n, hslots, hq0, hq, hmidway⟩ := h
  refine ⟨q.reverse, by simpa using hq0, ?_, p, n, hslots, by rwa [List.reverse_reverse]⟩
  rwa [← List.reverse_suffix, List.reverse_reverse]

/-- The slots fit into an image. -/
theorem fits (h : Torn c M w slots) (hsize : slots.size ≤ 2147483648) (e : Nat) :
    (slots.getD e {}).Fits := by
  obtain ⟨p, n, rfl, T, off, hlays, -, hwords, -⟩ := h
  exact hlays.slot_fits hwords hsize e

theorem root (h : Torn c M w slots) :
    (slots.getD 0 {}).base = c.encoding.rootBase ∧ (slots.getD 0 {}).check = -1 := by
  obtain ⟨p, n, rfl, T, off, hlays, -⟩ := h
  exact hlays.slot_zero

end Torn

namespace Trie

variable {t : Trie} {M : Entries}

/-- A trie that is not storing a value. -/
theorem Holds.torn (h : t.Holds M) : Torn t.config M [] t.pool.slots := ⟨t.pool, 0, rfl, h.midway⟩

/-- **What one call leaves behind.** -/
theorem Holds.leaves_perform (h : t.Holds M) (hbacking : t.pool.backing = .mapped) {call : Call}
    (hcall : call.Single) : (t.perform call).1.pool.Leaves t.pool.capacity fun slots =>
      ∃ key value w, call = .insert key value ∧ w ≠ [] ∧ w <+: key ∧
        Torn t.config M w slots := by
  have hself : ∀ S, t.pool.Leaves t.pool.capacity S := fun S => .inl ⟨hbacking, rfl⟩
  cases call with
  | insert key value =>
    unfold Trie.perform
    dsimp only
    rw [insert_eq]
    cases hrefusal : refusal t.config.encoding key value with
    | some err => exact hself _
    | none =>
      obtain ⟨hkey, h0, -⟩ := refusal_eq_none hrefusal
      refine (h.midway.leaves_store (hself _) hkey h0 value).imp_right ?_
      rintro ⟨slots, blocks, hslots, hsize, hbefore⟩
      obtain ⟨w, hw⟩ := Torn.of_before hbefore
      exact ⟨slots, blocks, hslots, hsize, key, value, w, rfl, hw⟩
  | erase key => exact ((Pool.writes_leaves _ _).erase ⟨rfl, hself _⟩ key).1.2
  | insertAll | insertKeys => exact hcall.elim

/-- What was left behind stays there, whatever comes after. -/
theorem detached_run {slots : Array Slot} {blocks : Array Block}
    (h : t.pool.backing = .detached slots blocks) (calls : List Call) :
    (t.run calls).1.pool.backing = .detached slots blocks :=
  (Pool.lockstep_detached t.config slots blocks).kept_run h calls

/-- A trie that has left its slots behind has grown. -/
theorem Holds.lt_capacity_of_detached (h : t.Holds M) (hbacking : t.pool.backing = .mapped)
    {calls : List Call} {slots : Array Slot} {blocks : Array Block}
    (hdetached : (t.run calls).1.pool.backing = .detached slots blocks) :
    t.pool.capacity < (t.run calls).1.pool.capacity := by
  obtain ⟨hle, hsame⟩ := capacity_run h.kept.valid h.capacity_pos calls
  refine hle.lt_of_ne fun heq => ?_
  have hmapped := (hsame heq.symm).trans hbacking
  rw [hdetached] at hmapped
  exact Backing.detached_ne_mapped slots blocks hmapped

/-- Call number `n` is the first that makes the arrays grow. -/
def GrowsAt (t : Trie) (calls : List Call) (n : Nat) : Prop :=
  (t.run (calls.take n)).1.pool.capacity = t.pool.capacity ∧
    t.pool.capacity < (t.run (calls.take (n + 1))).1.pool.capacity

/-- **What calls leave behind** is what the first of them leaves that makes the arrays grow: the
entries from before that call, and the first bytes of its key. -/
theorem Holds.leaves_run (h : t.Holds M) (hbacking : t.pool.backing = .mapped) {calls : List Call}
    (hcalls : ∀ call ∈ calls, call.Single) :
    (t.run calls).1.pool.Leaves t.pool.capacity fun slots =>
      ∃ n key value w, t.GrowsAt calls n ∧ calls[n]? = some (.insert key value) ∧ w ≠ [] ∧
        w <+: key ∧ Torn t.config (M.run t.config.encoding (calls.take n)).1 w slots := by
  induction calls generalizing t M with
  | nil => exact .inl ⟨hbacking, rfl⟩
  | cons call calls ih =>
    obtain ⟨hholds, hconfig, -⟩ := h.perform call
    rw [List.forall_mem_cons] at hcalls
    rcases h.leaves_perform hbacking hcalls.1 with ⟨hmapped, hcapacity⟩ |
      ⟨slots, blocks, hdetached, hsize, key, value, w, rfl, hw⟩
    · have hrest := ih hholds hmapped hcalls.2
      rw [hcapacity, hconfig] at hrest
      refine hrest.imp_right ?_
      rintro ⟨slots, blocks, hdetached, hsize, n, key, value, w, hgrows, hn⟩
      unfold GrowsAt at hgrows
      rw [hcapacity] at hgrows
      exact ⟨slots, blocks, hdetached, hsize, n + 1, key, value, w, hgrows, hn⟩
    · have hone : (t.run [.insert key value]).1.pool.backing = .detached slots blocks := hdetached
      exact .inr ⟨slots, blocks, detached_run hdetached calls, hsize, 0, key, value, w,
        ⟨rfl, h.lt_capacity_of_detached hbacking hone⟩, rfl, hw⟩

end Trie

end DoubleArrayTrie
