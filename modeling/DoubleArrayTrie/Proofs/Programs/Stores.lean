import DoubleArrayTrie.Image.Mapping
import DoubleArrayTrie.Proofs.Image.Rewriting
import DoubleArrayTrie.Proofs.Leaving
import DoubleArrayTrie.Proofs.Programs.Basic

/-!
# What a program writes to a mapped file

Each write of a program to a record is a store of some bytes, and while the part of the record is mapped
the store goes through the mapping to the file. What is read, and what is written to the heads and to
parts that have left the file, does not. So what the file has of a part follows the part write by write,
up to the growth at which the part leaves it.

* `Pool.stores`, `Program.stores`: what an access and a program store to a file.
* `Program.stores_kept`: what each access keeps of a pool and of what its stores change.
* `Whole.partBytes_effect`: what a write does to the bytes of the parts.
* `Whole.fileBytes?_effect`: what an access does to what the file has of them.
-/

namespace DoubleArrayTrie

open Image (overwrite)

/-! ### Stores -/

/-- Some bytes that are written to a record. -/
structure Store where
  part : Part
  /-- The number of the record. -/
  index : Nat
  /-- Where in the record. -/
  shift : Nat
  bytes : List UInt8

namespace Store

/-- Where the bytes go in the part. -/
def start (s : Store) : Nat := s.index * s.part.recordSize + s.shift

/-- Where they go in the image of a trie with so many slots. -/
def offset (slots : Nat) (s : Store) : Nat := s.part.offset slots + s.start

/-- The bytes of a part after the store. -/
def apply (s : Store) (part : Part) (bytes : List UInt8) : List UInt8 :=
  if s.part = part then overwrite s.start s.bytes bytes else bytes

end Store

def SlotWrite.store (i : Nat) : SlotWrite → Store
  | base raw => ⟨.nodes, i, 0, Integer.encode 4 raw⟩
  | check parent => ⟨.nodes, i, 4, Integer.encode 4 parent⟩
  | node raw parent => ⟨.nodes, i, 0, Integer.encode 4 raw ++ Integer.encode 4 parent⟩
  | sibling label => ⟨.links, i, 0, [label]⟩
  | child label => ⟨.links, i, 1, [label]⟩
  | clear => ⟨.links, i, 0, [0, 0]⟩

def BlockWrite.store (b : Nat) : BlockWrite → Store
  | prev d => ⟨.blocks, b, 0, Integer.encode 4 d⟩
  | next d => ⟨.blocks, b, 4, Integer.encode 4 d⟩
  | free n => ⟨.blocks, b, 8, Integer.encode 2 n⟩
  | reject n => ⟨.blocks, b, 10, Integer.encode 2 n⟩
  | trials n => ⟨.blocks, b, 12, Integer.encode 4 n⟩
  | head e => ⟨.blocks, b, 16, Integer.encode 4 e⟩
  | fresh => ⟨.blocks, b, 0, Image.blockBytes #[{}]⟩

/-- What the access writes to a record, if it does. -/
def Access.store? : Access → Option Store
  | writeSlot i w => some (w.store i)
  | writeBlock b w => some (w.store b)
  | writeBound n x => some ⟨.rejects, n, 0, Integer.encode 2 x⟩
  | slot _ | block _ | bound _ | head _ | size | writeHead .. | reserve | log _ | member .. => none

/-- What an access stores to the file that the pool is mapped from. -/
def Pool.stores (p : Pool) (x : Access) : List Store :=
  x.store?.toList.filter fun s => p.backing.isMapped s.part

/-- What is stored to the file while a block is opened. -/
def Opening.stores (c : Config) : Opening → Pool → List Store
  | done, _ | fault, _ => []
  | access x next, p => p.stores x ++ stores c (next (x.reply p)) (x.effect c p)

/-- What a program stores to the file, in this order. -/
def Program.stores {α : Type} (c : Config) : Program α → Pool → List Store
  | done _, _ | fault, _ => []
  | access x next, p => p.stores x ++ stores c (next (x.reply p)) (x.effect c p)
  | opening body next, p => body.stores c p ++
      match body.run c p with
      | some q => stores c next q.extend
      | none => []

section

variable {α β : Type} {c : Config} {p q : Pool} {x : Program α} {a : α} {J : Pool → β → Prop}
  {b : β} (put : β → Store → β)

theorem Pool.stores_extend (p : Pool) (x : Access) : p.extend.stores x = p.stores x := rfl

theorem Opening.stores_kept
    (haccess : ∀ {p : Pool} {x : Access} {b : β}, J p b → x.Allowed c p →
      J (x.effect c p) ((p.stores x).foldl put b))
    {body : Opening} (h : body.run c p = some q) (hp : J p.extend b) :
    J q.extend ((body.stores c p).foldl put b) := by
  induction body generalizing p b with
  | done =>
    obtain rfl := Option.some.inj h
    exact hp
  | access x next ih =>
    rw [run] at h
    split_ifs at h with hopens
    obtain ⟨hlocal, hallowed⟩ := Access.opens_iff.mp hopens
    have hkept := haccess hp hallowed
    rw [hlocal.effect_extend, Pool.stores_extend] at hkept
    rw [stores, List.foldl_append]
    exact ih _ h hkept
  | fault => simp [run] at h

/-- What each access keeps of a pool and of something that its stores change, and a pool with one more
block has as well, a program keeps. -/
theorem Program.stores_kept
    (haccess : ∀ {p : Pool} {x : Access} {b : β}, J p b → x.Allowed c p →
      J (x.effect c p) ((p.stores x).foldl put b))
    (hextend : ∀ {p : Pool} {b : β}, J p b → p.size + blockSize ≤ p.capacity → J p.extend b)
    (hx : x.run c p = some (q, a)) (hp : J p b) : J q ((x.stores c p).foldl put b) := by
  induction x generalizing p b with
  | done a =>
    obtain ⟨rfl, -⟩ := Prod.mk.inj (Option.some.inj hx)
    exact hp
  | access x next ih =>
    rw [run] at hx
    split_ifs at hx with hallowed
    rw [stores, List.foldl_append]
    exact ih _ hx (haccess hp hallowed)
  | opening body next ih =>
    rw [run] at hx
    split_ifs at hx with hroom
    cases hbody : body.run c p with
    | none => simp [hbody] at hx
    | some r =>
      rw [hbody] at hx
      rw [stores, List.foldl_append, hbody]
      exact ih hx (Opening.stores_kept put haccess hbody (hextend hp hroom))
  | fault => simp [run] at hx

end

/-! ### The bytes of the parts -/

/-- **One of many records is changed** by a store to it. -/
theorem Store.flatMap_modify {α : Type} {f : α → List UInt8} (part : Part)
    (hf : ∀ a, (f a).length = part.recordSize) {items : List α} {i : Nat} (hi : i < items.length)
    {g : α → α} {s : Store} (hindex : s.index = i)
    (hg : ∀ a, f (g a) = if s.part = part then overwrite s.shift s.bytes (f a) else f a)
    (hfits : s.shift + s.bytes.length ≤ s.part.recordSize) :
    (items.modify i g).flatMap f = s.apply part (items.flatMap f) := by
  subst hindex
  unfold Store.apply
  split_ifs with hpart
  · subst hpart
    simp only [if_true] at hg
    exact Image.flatMap_modify hf hi hg hfits
  · simp only [if_neg hpart] at hg
    exact Image.flatMap_modify_same hg _ _

namespace SlotWrite

theorem store_index (w : SlotWrite) (i : Nat) : (w.store i).index = i := by
  cases w <;> rfl

/-- What is stored is part of one record. -/
theorem store_le (w : SlotWrite) (i : Nat) :
    (w.store i).shift + (w.store i).bytes.length ≤ (w.store i).part.recordSize := by
  cases w <;> simp [store, Part.recordSize]

theorem words_apply (w : SlotWrite) (i : Nat) (s : Slot) : (w.apply s).words =
    if (w.store i).part = .nodes then overwrite (w.store i).shift (w.store i).bytes s.words
    else s.words := by
  cases w with
  | base raw => exact (Image.overwrite_front (by simp) _).symm
  | check parent => exact (Image.overwrite_back (by simp [store]) (by simp)).symm
  | node raw parent => exact (Image.overwrite_all (by simp)).symm
  | sibling | child | clear => rfl

theorem labels_apply (w : SlotWrite) (i : Nat) (s : Slot) : (w.apply s).labels =
    if (w.store i).part = .links then overwrite (w.store i).shift (w.store i).bytes s.labels
    else s.labels := by
  cases w <;> rfl

end SlotWrite

namespace BlockWrite

theorem store_index (w : BlockWrite) (b : Nat) : (w.store b).index = b := by
  cases w <;> rfl

theorem store_le (w : BlockWrite) (b : Nat) :
    (w.store b).shift + (w.store b).bytes.length ≤ (w.store b).part.recordSize := by
  cases w <;> simp [store, Part.recordSize, Image.blockBytes]

theorem bytes_apply (w : BlockWrite) (b : Nat) (r : Block) : (w.apply r).bytes =
    if (w.store b).part = .blocks then overwrite (w.store b).shift (w.store b).bytes r.bytes
    else r.bytes := by
  cases w with
  | fresh => exact (Image.overwrite_all (by simp)).symm
  | prev | next | free | reject | trials | head =>
    simp [apply, store, Block.bytes, overwrite, Integer.encode]

end BlockWrite

namespace Pool

variable {c : Config} {p q : Pool} {x : Access} {s : Store} {i b n : Nat}

theorem partBytes_modifySlot (hi : i < p.capacity) (w : SlotWrite) (part : Part) :
    (p.modifySlot i w.apply).partBytes part = (w.store i).apply part (p.partBytes part) := by
  have hlist : (p.slots.modify i w.apply).toList = p.slots.toList.modify i w.apply :=
    Array.toList_modify ..
  cases part with
  | nodes =>
    exact (congrArg (·.flatMap Slot.words) hlist).trans (Store.flatMap_modify .nodes
      Slot.length_words hi (w.store_index i) (w.words_apply i) (w.store_le i))
  | links =>
    exact (congrArg (·.flatMap Slot.labels) hlist).trans (Store.flatMap_modify .links
      (fun _ => rfl) hi (w.store_index i) (w.labels_apply i) (w.store_le i))
  | blocks | rejects => cases w <;> rfl

theorem partBytes_modifyBlock (hb : b < p.blocks.size) (w : BlockWrite) (part : Part) :
    (p.modifyBlock b w.apply).partBytes part = (w.store b).apply part (p.partBytes part) := by
  have hlist : (p.blocks.modify b w.apply).toList = p.blocks.toList.modify b w.apply :=
    Array.toList_modify ..
  cases part with
  | blocks =>
    exact (congrArg (·.flatMap Block.bytes) hlist).trans (Store.flatMap_modify .blocks
      Block.length_bytes hb (w.store_index b) (w.bytes_apply b) (w.store_le b))
  | nodes | links | rejects => cases w <;> rfl

theorem partBytes_setReject (hn : n < p.rejects.size) (y : Int) (part : Part) :
    (p.setReject n y).partBytes part =
      Store.apply ⟨.rejects, n, 0, Integer.encode 2 y⟩ part (p.partBytes part) := by
  have hlist : (p.rejects.setIfInBounds n y).toList = p.rejects.toList.modify n fun _ => y := by
    rw [Array.toList_setIfInBounds, List.set_eq_modify]
  cases part with
  | rejects =>
    have hall : ∀ z : Int, Integer.encode 2 y = overwrite 0 (Integer.encode 2 y) (Integer.encode 2 z) :=
      fun z => (Image.overwrite_all (by simp)).symm
    exact (congrArg (·.flatMap (Integer.encode 2)) hlist).trans (Store.flatMap_modify .rejects
      (s := ⟨.rejects, n, 0, Integer.encode 2 y⟩) (Integer.length_encode 2) hn rfl hall
      (by simp [Part.recordSize]))
  | nodes | links | blocks => rfl

/-! ### What an access does to the parts -/

theorem length_partBytes (p : Pool) (part : Part) : (p.partBytes part).length = p.byteSize part := by
  cases part with
  | nodes => exact Image.length_nodeBytes _
  | links => exact Image.length_linkBytes _
  | blocks => exact Image.length_blockBytes _
  | rejects => exact Image.length_rejectBytes _

/-- The arrays have whole blocks, and have what is in use. -/
structure Whole (p : Pool) : Prop where
  size_le : p.size ≤ p.capacity
  le_capacity : blockSize ≤ p.capacity
  capacity_dvd : blockSize ∣ p.capacity
  size_blocks : p.blocks.size = p.capacity / blockSize
  size_rejects : p.rejects.size = rejectCount

namespace Whole

theorem blocksInUse_le (h : p.Whole) : p.blocksInUse ≤ p.blocks.size := by
  rw [h.size_blocks]
  exact Nat.div_le_div_right h.size_le

/-- Only how many records there are matters. -/
theorem congr (h : p.Whole) (hsize : q.size = p.size) (hslots : q.slots.size = p.slots.size)
    (hblocks : q.blocks.size = p.blocks.size) (hrejects : q.rejects.size = p.rejects.size) :
    q.Whole := by
  have hcapacity : q.capacity = p.capacity := hslots
  refine ⟨?_, ?_, ?_, ?_, hrejects.trans h.size_rejects⟩
  · rw [hsize, hcapacity]
    exact h.size_le
  · rw [hcapacity]
    exact h.le_capacity
  · rw [hcapacity]
    exact h.capacity_dvd
  · rw [hblocks, hcapacity]
    exact h.size_blocks

theorem extend (h : p.Whole) (hroom : p.size + blockSize ≤ p.capacity) : p.extend.Whole :=
  ⟨hroom, h.le_capacity, h.capacity_dvd, h.size_blocks, h.size_rejects⟩

theorem grow (hc : c.fault? = none) (h : p.Whole) : (p.grow c).Whole := by
  obtain ⟨-, hdvd⟩ := step_growth hc h.le_capacity h.capacity_dvd
  refine ⟨?_, ?_, ?_, ?_, ?_⟩
  · rw [size_grow, capacity_grow]
    exact h.size_le.trans (Nat.le_add_right ..)
  · rw [capacity_grow]
    exact h.le_capacity.trans (Nat.le_add_right ..)
  · rw [capacity_grow]
    exact Nat.dvd_add h.capacity_dvd hdvd
  · have hblocks := h.size_blocks
    have hwhole := h.capacity_dvd
    rw [size_blocks_grow, capacity_grow]
    unfold blockSize at *
    omega
  · rw [rejects_grow]
    exact h.size_rejects

theorem effect (hc : c.fault? = none) (h : p.Whole) (x : Access) : (x.effect c p).Whole := by
  cases x with
  | slot | block | bound | head | size | member => exact h
  | writeSlot i w => exact h.congr rfl (capacity_modifySlot ..) rfl rfl
  | writeBlock b w => exact h.congr rfl rfl (size_blocks_modifyBlock ..) rfl
  | writeBound n y => exact h.congr rfl rfl rfl Array.size_setIfInBounds
  | writeHead r b => cases r <;> exact h.congr rfl rfl rfl rfl
  | reserve =>
    unfold Access.effect
    dsimp only
    split_ifs
    · exact h.grow hc
    · exact h
  | log event => exact h.congr rfl rfl rfl rfl

/-- **What a write does to the bytes of the parts.** -/
theorem partBytes_effect (h : p.Whole) (hx : x.Allowed c p) (hs : x.store? = some s) (part : Part) :
    (x.effect c p).partBytes part = s.apply part (p.partBytes part) := by
  cases x with
  | writeSlot i w =>
    obtain rfl := Option.some.inj hs
    exact partBytes_modifySlot (hx.1.trans_le h.size_le) w part
  | writeBlock b w =>
    obtain rfl := Option.some.inj hs
    exact partBytes_modifyBlock (hx.1.trans_le h.blocksInUse_le) w part
  | writeBound n y =>
    obtain rfl := Option.some.inj hs
    exact partBytes_setReject (hx.1.trans_eq h.size_rejects.symm) y part
  | slot | block | bound | head | size | writeHead | reserve | log | member => simp [Access.store?] at hs

/-- What is written stays within the part. -/
theorem store_le (h : p.Whole) (hx : x.Allowed c p) (hs : x.store? = some s) :
    s.start + s.bytes.length ≤ p.byteSize s.part := by
  have hbound : ∀ s : Store, s.index < p.recordCount s.part →
      s.shift + s.bytes.length ≤ s.part.recordSize → s.start + s.bytes.length ≤ p.byteSize s.part := by
    intro s hindex hfits
    calc s.start + s.bytes.length ≤ (s.index + 1) * s.part.recordSize := by
          rw [Nat.succ_mul, Store.start, Nat.add_assoc]
          exact Nat.add_le_add_left hfits _
      _ ≤ p.byteSize s.part := Nat.mul_le_mul_right _ hindex
  cases x with
  | writeSlot i w =>
    obtain rfl := Option.some.inj hs
    refine hbound _ ?_ (w.store_le i)
    rw [w.store_index]
    have hi : i < p.slots.size := hx.1.trans_le h.size_le
    cases w <;> exact hi
  | writeBlock b w =>
    obtain rfl := Option.some.inj hs
    refine hbound _ ?_ (w.store_le b)
    rw [w.store_index]
    have hb : b < p.blocks.size := hx.1.trans_le h.blocksInUse_le
    cases w <;> exact hb
  | writeBound n y =>
    obtain rfl := Option.some.inj hs
    exact hbound _ (hx.1.trans_eq h.size_rejects.symm) (by simp [Part.recordSize])
  | slot | block | bound | head | size | writeHead | reserve | log | member => simp [Access.store?] at hs

end Whole

/-! ### What an access does to a file -/

theorem fileBytes?_of_mapped {part : Part} (h : p.backing.isMapped part = true) :
    p.fileBytes? part = some (p.partBytes part) := by
  unfold Backing.isMapped at h
  unfold fileBytes? partBytes
  cases part with
  | nodes => cases hhome : p.backing.nodes <;> simp_all [Home.isMapped, Home.inFile]
  | links => cases hhome : p.backing.links <;> simp_all [Home.isMapped, Home.inFile]
  | blocks => cases hhome : p.backing.blocks <;> simp_all [Home.isMapped, Home.inFile]
  | rejects => cases hhome : p.backing.rejects <;> simp_all [Home.isMapped, Home.inFile]

/-- What a file has of a part that is not mapped from it stays. -/
theorem fileBytes?_of_not_mapped {part : Part} (h : p.backing.isMapped part = false)
    (hbacking : q.backing = p.backing) : q.fileBytes? part = p.fileBytes? part := by
  unfold Backing.isMapped at h
  unfold fileBytes?
  rw [hbacking]
  cases part with
  | nodes => cases hhome : p.backing.nodes <;> simp_all [Home.isMapped, Home.inFile]
  | links => cases hhome : p.backing.links <;> simp_all [Home.isMapped, Home.inFile]
  | blocks => cases hhome : p.backing.blocks <;> simp_all [Home.isMapped, Home.inFile]
  | rejects => cases hhome : p.backing.rejects <;> simp_all [Home.isMapped, Home.inFile]

/-- **Growth leaves a file as it is**: what is enlarged has left it before. -/
theorem fileBytes?_grow (c : Config) (p : Pool) (part : Part) :
    (p.grow c).fileBytes? part = p.fileBytes? part := by
  have hleave : ∀ {α : Type} (h : Home α) (records records' : Array α),
      (h.leave records).inFile records' = h.inFile records := by
    intro α h _ _
    cases h <;> rfl
  unfold fileBytes?
  rw [backing_grow, rejects_grow]
  cases part with
  | nodes | links | blocks => exact congrArg (Option.map _) (hleave ..)
  | rejects => rfl

theorem backing_effect_of_store (hs : x.store? = some s) : (x.effect c p).backing = p.backing := by
  cases x with
  | writeSlot | writeBlock | writeBound => rfl
  | slot | block | bound | head | size | writeHead | reserve | log | member => simp [Access.store?] at hs

theorem fileBytes?_of_store_eq_none (hs : x.store? = none) (part : Part) :
    (x.effect c p).fileBytes? part = p.fileBytes? part := by
  cases x with
  | slot | block | bound | head | size | log | member => rfl
  | writeHead r b => cases r <;> rfl
  | reserve =>
    unfold Access.effect
    dsimp only
    split_ifs
    · exact fileBytes?_grow ..
    · rfl
  | writeSlot | writeBlock | writeBound => simp [Access.store?] at hs

/-- **What an access does to a file** is what it stores there. -/
theorem Whole.fileBytes?_effect (h : p.Whole) (hx : x.Allowed c p) (part : Part) :
    (x.effect c p).fileBytes? part =
      (p.fileBytes? part).map fun bytes =>
        (p.stores x).foldl (fun bytes s => s.apply part bytes) bytes := by
  unfold stores
  cases hs : x.store? with
  | none =>
    rw [fileBytes?_of_store_eq_none hs]
    simp
  | some s =>
    have hbacking : (x.effect c p).backing = p.backing := backing_effect_of_store hs
    have helse : s.part ≠ part → ∀ bytes, s.apply part bytes = bytes := fun hpart _ => if_neg hpart
    cases hmapped : p.backing.isMapped part with
    | true =>
      rw [fileBytes?_of_mapped hmapped, fileBytes?_of_mapped (by rwa [hbacking]),
        h.partBytes_effect hx hs]
      by_cases hpart : s.part = part
      · simp [hpart, hmapped]
      · cases hstored : p.backing.isMapped s.part <;> simp [hstored, helse hpart]
    | false =>
      rw [fileBytes?_of_not_mapped hmapped hbacking]
      cases hstored : p.backing.isMapped s.part with
      | true =>
        have hpart : s.part ≠ part := by
          rintro rfl
          rw [hstored] at hmapped
          exact absurd hmapped (by decide)
        simp [hstored, helse hpart]
      | false => simp [hstored]

end Pool

end DoubleArrayTrie
