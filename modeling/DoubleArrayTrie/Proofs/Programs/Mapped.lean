import DoubleArrayTrie.Proofs.Programs.Stores

/-!
# The file of a mapped pool

A pool that lives in a file has all its parts there until it grows, and then leaves all of them but the
bounds. The file has a header before the parts, and may have more after them. What a program stores
goes to where the parts are, so that the file has the records of the pool after each write to them.

* `Pool.Lodged`: all parts are mapped, or all but the bounds have left.
* `Pool.LivesIn`: so they are in a file for so many slots.
* `Image.overwrite_parts`: a store to one of the parts.
* `LivesIn.file_access`, `LivesIn.file_run`: the file of a shared mapping follows the records.
-/

namespace DoubleArrayTrie

open Image (overwrite)

/-! ### Parts between others -/

theorem Store.length_apply {s : Store} {b : Part → List UInt8}
    (hs : s.start + s.bytes.length ≤ (b s.part).length) (part : Part) :
    (s.apply part (b part)).length = (b part).length := by
  unfold Store.apply
  split_ifs with hpart
  · subst hpart
    exact Image.length_overwrite hs
  · rfl

namespace Image

/-- The bytes of four parts one after the other. -/
def joined (b : Part → List UInt8) : List UInt8 := b .nodes ++ b .links ++ b .blocks ++ b .rejects

variable {n k : Nat} {before content bytes after head tail : List UInt8} {b : Part → List UInt8}
  {s : Store}

theorem overwrite_between (hbefore : before.length = k) (h : n + bytes.length ≤ content.length)
    (after : List UInt8) : overwrite (k + n) bytes (before ++ (content ++ after)) =
      before ++ (overwrite n bytes content ++ after) := by
  subst hbefore
  exact overwrite_append h before after

/-- The parts of a file for so many slots. The last one has its own length. -/
structure Spans (n : Nat) (b : Part → List UInt8) : Prop where
  nodes : (b .nodes).length = n * Part.nodes.recordSize
  links : (b .links).length = n * Part.links.recordSize
  blocks : (b .blocks).length = n / blockSize * Part.blocks.recordSize

/-- **A store to one of the parts** leaves the others, and what is before and after them. -/
theorem overwrite_parts (hhead : head.length = Header.byteSize) (hb : Spans n b)
    (hs : s.start + s.bytes.length ≤ (b s.part).length) (tail : List UInt8) :
    overwrite (s.offset n) s.bytes (head ++ joined b ++ tail) =
      head ++ joined (fun part => s.apply part (b part)) ++ tail := by
  obtain ⟨part, index, shift, bytes⟩ := s
  unfold joined Store.offset Store.apply
  cases part with
  | nodes =>
    have h := overwrite_between hhead hs (b .links ++ b .blocks ++ b .rejects ++ tail)
    simpa [Part.offset] using h
  | links =>
    have hbefore : (head ++ b .nodes).length = Part.links.offset n := by
      rw [List.length_append, hhead, hb.nodes]
      rfl
    have h := overwrite_between hbefore hs (b .blocks ++ b .rejects ++ tail)
    simpa using h
  | blocks =>
    have hbefore : (head ++ b .nodes ++ b .links).length = Part.blocks.offset n := by
      rw [List.length_append, List.length_append, hhead, hb.nodes, hb.links]
      rfl
    have h := overwrite_between hbefore hs (b .rejects ++ tail)
    simpa using h
  | rejects =>
    have hbefore : (head ++ b .nodes ++ b .links ++ b .blocks).length = Part.rejects.offset n := by
      rw [List.length_append, List.length_append, List.length_append, hhead, hb.nodes, hb.links,
        hb.blocks]
      rfl
    have h := overwrite_between hbefore hs tail
    simpa using h

/-- Such a store is inside the file. -/
theorem offset_le (hhead : head.length = Header.byteSize) (hb : Spans n b)
    (hs : s.start + s.bytes.length ≤ (b s.part).length) (tail : List UInt8) :
    s.offset n + s.bytes.length ≤ (head ++ joined b ++ tail).length := by
  have hnodes := hb.nodes
  have hlinks := hb.links
  have hblocks := hb.blocks
  unfold joined Store.offset
  simp only [List.length_append]
  cases hpart : s.part <;> rw [hpart] at hs <;> simp only [Part.offset] <;> omega

end Image

/-! ### What a file holds of a pool -/

namespace Pool

variable {c : Config} {p q : Pool} {n : Nat}

/-- All parts are mapped from a file, or all but the bounds have left it. -/
def Lodged (p : Pool) : Prop :=
  p.backing = .mapped ∨ ∃ slots blocks, p.backing = .detached slots blocks

/-- The slots in the file that the pool is mapped from. -/
def fileSlots (p : Pool) : Array Slot :=
  match p.backing.nodes with
  | .left slots => slots
  | .heap | .mapped => p.slots

/-- The blocks in the file that the pool is mapped from. -/
def fileBlocks (p : Pool) : Array Block :=
  match p.backing.blocks with
  | .left blocks => blocks
  | .heap | .mapped => p.blocks

/-- The bytes of its parts in the file that the pool is mapped from. -/
def filePart (p : Pool) : Part → List UInt8
  | .nodes => Image.nodeBytes p.fileSlots
  | .links => Image.linkBytes p.fileSlots
  | .blocks => Image.blockBytes p.fileBlocks
  | .rejects => Image.rejectBytes p.rejects

/-- The bytes in the file that the pool is mapped from. -/
def fileParts (p : Pool) : List UInt8 := Image.partsBytes p.fileSlots p.fileBlocks p.rejects

theorem joined_filePart (p : Pool) : Image.joined p.filePart = p.fileParts := rfl

theorem fileSlots_of_mapped (h : p.backing = .mapped) : p.fileSlots = p.slots := by
  unfold fileSlots
  rw [h]
  rfl

theorem fileBlocks_of_mapped (h : p.backing = .mapped) : p.fileBlocks = p.blocks := by
  unfold fileBlocks
  rw [h]
  rfl

theorem fileSlots_of_detached {slots : Array Slot} {blocks : Array Block}
    (h : p.backing = .detached slots blocks) : p.fileSlots = slots := by
  unfold fileSlots
  rw [h]
  rfl

theorem fileBlocks_of_detached {slots : Array Slot} {blocks : Array Block}
    (h : p.backing = .detached slots blocks) : p.fileBlocks = blocks := by
  unfold fileBlocks
  rw [h]
  rfl

theorem Lodged.fileBytes?_eq (h : p.Lodged) (part : Part) :
    p.fileBytes? part = some (p.filePart part) := by
  unfold fileBytes? filePart fileSlots fileBlocks
  rcases h with h | ⟨slots, blocks, h⟩ <;> rw [h] <;> cases part <;> rfl

theorem Lodged.effect (h : p.Lodged) (c : Config) (x : Access) : (x.effect c p).Lodged := by
  cases x with
  | slot | block | bound | head | size | writeSlot | writeBlock | writeBound | log | member => exact h
  | writeHead r b => cases r <;> exact h
  | reserve =>
    unfold Access.effect
    dsimp only
    split_ifs
    · rcases h with h | ⟨slots, blocks, h⟩
      · exact .inr ⟨_, _, backing_grow_of_mapped c h⟩
      · exact .inr ⟨_, _, backing_grow_of_detached c h⟩
    · exact h

/-- The pool lives in a file for so many slots. -/
structure LivesIn (p : Pool) (n : Nat) : Prop where
  lodged : p.Lodged
  spans : Image.Spans n p.filePart

theorem Whole.livesIn (h : p.Whole) (hmapped : p.backing = .mapped) : p.LivesIn p.capacity where
  lodged := .inl hmapped
  spans :=
    { nodes := by
        rw [filePart, fileSlots_of_mapped hmapped]
        exact Image.length_nodeBytes _
      links := by
        rw [filePart, fileSlots_of_mapped hmapped]
        exact Image.length_linkBytes _
      blocks := by rw [filePart, fileBlocks_of_mapped hmapped, Image.length_blockBytes, h.size_blocks] }

/-- Only what is in the file matters, and where. -/
theorem LivesIn.congr (h : p.LivesIn n) (hbacking : q.backing = p.backing)
    (hpart : q.filePart = p.filePart) : q.LivesIn n where
  lodged := by
    unfold Lodged
    rw [hbacking]
    exact h.lodged
  spans := hpart ▸ h.spans

theorem LivesIn.size_fileSlots (h : p.LivesIn n) : p.fileSlots.size = n := by
  have hnodes := h.spans.nodes
  rw [filePart, Image.length_nodeBytes] at hnodes
  exact Nat.eq_of_mul_eq_mul_right (by decide) hnodes

theorem LivesIn.size_fileBlocks (h : p.LivesIn n) : p.fileBlocks.size = n / blockSize := by
  have hblocks := h.spans.blocks
  rw [filePart, Image.length_blockBytes] at hblocks
  exact Nat.eq_of_mul_eq_mul_right (by decide) hblocks

/-! ### Stores to the file -/

section

variable {x : Access} {s : Store} {head tail : List UInt8} {m : Mapping} {v : View}

theorem mem_stores : s ∈ p.stores x ↔ x.store? = some s ∧ p.backing.isMapped s.part = true := by
  unfold stores
  rw [List.mem_filter, Option.mem_toList]

/-- An access stores once, if at all. -/
theorem stores_eq (p : Pool) (x : Access) : p.stores x = [] ∨ ∃ s, p.stores x = [s] := by
  unfold stores
  cases x.store? with
  | none => exact .inl rfl
  | some s =>
    cases hmapped : p.backing.isMapped s.part with
    | true => exact .inr ⟨s, by simp [hmapped]⟩
    | false => exact .inl (by simp [hmapped])

/-- What is stored stays within its part of the file. -/
theorem Lodged.store_le (h : p.Lodged) (hw : p.Whole) (hx : x.Allowed c p) (hs : s ∈ p.stores x) :
    s.start + s.bytes.length ≤ (p.filePart s.part).length := by
  obtain ⟨hs, hmapped⟩ := mem_stores.mp hs
  have hpart := (h.fileBytes?_eq s.part).symm.trans (fileBytes?_of_mapped hmapped)
  rw [Option.some.inj hpart, length_partBytes]
  exact hw.store_le hx hs

theorem Lodged.filePart_effect (h : p.Lodged) (hw : p.Whole) (hx : x.Allowed c p) (part : Part) :
    (x.effect c p).filePart part =
      (p.stores x).foldl (fun bytes s => s.apply part bytes) (p.filePart part) := by
  have heffect := hw.fileBytes?_effect hx part
  rw [(h.effect c x).fileBytes?_eq, h.fileBytes?_eq, Option.map_some] at heffect
  exact Option.some.inj heffect

theorem LivesIn.extend (h : p.LivesIn n) : p.extend.LivesIn n := ⟨h.lodged, h.spans⟩

/-- **A pool stays in its file**, and never needs more room there. -/
theorem LivesIn.effect (h : p.LivesIn n) (hw : p.Whole) (hx : x.Allowed c p) :
    (x.effect c p).LivesIn n := by
  have hlength : ∀ part, ((x.effect c p).filePart part).length = (p.filePart part).length := by
    intro part
    rw [h.lodged.filePart_effect hw hx]
    rcases p.stores_eq x with hnone | ⟨s, hs⟩
    · rw [hnone, List.foldl_nil]
    · rw [hs]
      exact Store.length_apply (h.lodged.store_le hw hx (by simp [hs])) part
  exact ⟨h.lodged.effect c x, ⟨(hlength _).trans h.spans.nodes, (hlength _).trans h.spans.links,
    (hlength _).trans h.spans.blocks⟩⟩

end

end Pool

/-! ### Files of mappings -/

/-- The content of the file after a store through the mapping. -/
def View.put (m : Mapping) (v : View) (content : List UInt8) (s : Store) : List UInt8 :=
  m.store v.sharing (s.offset v.slots) s.bytes content

namespace Pool

variable {α : Type} {c : Config} {p q : Pool} {n number : Nat} {x : Access} {m : Mapping}
  {head tail : List UInt8}

/-- **What an access stores to a shared file** brings it up to date. -/
theorem LivesIn.file_access (hm : m.Documented) (h : p.LivesIn n) (hw : p.Whole)
    (hx : x.Allowed c p) (hhead : head.length = Header.byteSize) :
    (p.stores x).foldl (View.put m ⟨number, .shared, n⟩) (head ++ p.fileParts ++ tail) =
      head ++ (x.effect c p).fileParts ++ tail := by
  have hparts : (x.effect c p).filePart =
      fun part => (p.stores x).foldl (fun bytes s => s.apply part bytes) (p.filePart part) :=
    funext (h.lodged.filePart_effect hw hx)
  rw [← joined_filePart, ← joined_filePart, hparts]
  rcases p.stores_eq x with hnone | ⟨s, hs⟩
  · rw [hnone]
    rfl
  · have hle := h.lodged.store_le hw hx (s := s) (by simp [hs])
    rw [hs, List.foldl_cons, List.foldl_nil, View.put,
      hm.shared _ _ _ (Image.offset_le hhead h.spans hle tail),
      Image.overwrite_parts hhead h.spans hle tail]
    rfl

theorem LivesIn.run (hc : c.fault? = none) (h : p.LivesIn n) (hw : p.Whole) {y : Program α} {a : α}
    (hy : y.run c p = some (q, a)) : q.Whole ∧ q.LivesIn n :=
  Program.run_kept (I := fun r => r.Whole ∧ r.LivesIn n)
    (fun hr hx => ⟨hr.1.effect hc _, hr.2.effect hr.1 hx⟩)
    (fun hr hroom => ⟨hr.1.extend hroom, hr.2.extend⟩) hy ⟨hw, h⟩

/-- **What a program stores to a shared file** brings it up to date, access by access. -/
theorem LivesIn.file_run (hm : m.Documented) (hc : c.fault? = none) (h : p.LivesIn n) (hw : p.Whole)
    {y : Program α} {a : α} (hy : y.run c p = some (q, a)) (hhead : head.length = Header.byteSize) :
    (y.stores c p).foldl (View.put m ⟨number, .shared, n⟩) (head ++ p.fileParts ++ tail) =
      head ++ q.fileParts ++ tail := by
  have hkept := Program.stores_kept (View.put m ⟨number, .shared, n⟩)
    (J := fun r content => r.Whole ∧ r.LivesIn n ∧ content = head ++ r.fileParts ++ tail)
    (fun hJ hx => ?_) (fun hJ hroom => ⟨hJ.1.extend hroom, hJ.2.1.extend, hJ.2.2⟩) hy ⟨hw, h, rfl⟩
  · exact hkept.2.2
  · obtain ⟨hr, hlives, rfl⟩ := hJ
    exact ⟨hr.effect hc _, hlives.effect hr hx, hlives.file_access hm hr hx hhead⟩

/-- Parts that are stored as a whole. -/
theorem foldl_store_parts (hm : m.Documented) {f b : Part → List UInt8} (hb : Image.Spans n b)
    (hf : ∀ part, (f part).length = (b part).length) (hhead : head.length = Header.byteSize)
    (tail : List UInt8) (parts : List Part) :
    parts.foldl (fun content part => m.store .shared (part.offset n) (f part) content)
        (head ++ Image.joined b ++ tail) =
      head ++ Image.joined (fun part => if part ∈ parts then f part else b part) ++ tail := by
  induction parts generalizing b with
  | nil => simp
  | cons first parts ih =>
    have hoffset : (Store.mk first 0 0 (f first)).offset n = first.offset n := by
      simp [Store.offset, Store.start]
    have hle : (Store.mk first 0 0 (f first)).start + (f first).length ≤ (b first).length := by
      simp [Store.start, hf]
    have hover : ∀ part, (Store.mk first 0 0 (f first)).apply part (b part) =
        if part = first then f first else b part := by
      intro part
      unfold Store.apply Store.start
      by_cases hpart : first = part
      · subst hpart
        simp [Image.overwrite_all (hf first).symm]
      · simp [hpart, Ne.symm hpart]
    have hlength := Store.length_apply (s := ⟨first, 0, 0, f first⟩) (b := b) hle
    rw [List.foldl_cons, ← hoffset, hm.shared _ _ _ (Image.offset_le hhead hb hle tail),
      Image.overwrite_parts hhead hb hle tail,
      ih ⟨(hlength _).trans hb.nodes, (hlength _).trans hb.links, (hlength _).trans hb.blocks⟩
        fun part => (hf part).trans (hlength part).symm]
    congr 3
    funext part
    rw [hover]
    by_cases hpart : part = first <;> simp [hpart]

/-- **To bring a shared file up to date** has the same effect, whatever its parts were before. -/
theorem LivesIn.writeBack_eq (hm : m.Documented) (hp : p.LivesIn n) (hq : q.LivesIn n)
    (hrejects : p.rejects.size = q.rejects.size) (hhead : head.length = Header.byteSize)
    (tail : List UInt8) :
    q.writeBack m ⟨number, .shared, n⟩ (head ++ p.fileParts ++ tail) = head ++ q.fileParts ++ tail := by
  have hlength : ∀ part, (q.filePart part).length = (p.filePart part).length := by
    intro part
    cases part with
    | nodes => exact hq.spans.nodes.trans hp.spans.nodes.symm
    | links => exact hq.spans.links.trans hp.spans.links.symm
    | blocks => exact hq.spans.blocks.trans hp.spans.blocks.symm
    | rejects => rw [filePart, filePart, Image.length_rejectBytes, Image.length_rejectBytes, hrejects]
  unfold writeBack
  simp only [hq.lodged.fileBytes?_eq]
  rw [← joined_filePart, ← joined_filePart, foldl_store_parts hm hp.spans hlength hhead tail]
  rfl

/-- **What is stored apart from a file** leaves it as it is. -/
theorem foldl_put_apart (hm : m.Documented) (number n : Nat) (stores : List Store)
    (content : List UInt8) :
    stores.foldl (View.put m ⟨number, .apart, n⟩) content = content := by
  induction stores with
  | nil => rfl
  | cons s stores ih =>
    rw [List.foldl_cons, View.put, hm.apart]
    exact ih

theorem writeBack_apart (hm : m.Documented) (number n : Nat) (p : Pool) (content : List UInt8) :
    p.writeBack m ⟨number, .apart, n⟩ content = content := by
  unfold writeBack
  dsimp only
  induction [Part.nodes, .links, .blocks, .rejects] with
  | nil => rfl
  | cons part parts ih =>
    rw [List.foldl_cons]
    cases p.fileBytes? part with
    | none => exact ih
    | some bytes =>
      dsimp only
      rw [hm.apart]
      exact ih

end Pool

end DoubleArrayTrie
