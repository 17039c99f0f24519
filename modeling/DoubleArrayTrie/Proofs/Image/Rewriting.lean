import Mathlib.Data.List.Basic
import DoubleArrayTrie.Proofs.Image.RoundTrip

/-!
# Records are rewritten in place

All records of a part have the same length. So a change to one of them is a change to the bytes where
it stands, and where a field is changed to the bytes of the field.

* `Image.flatMap_modify`: one of many records is changed.
* `Image.nodeBytes_modify`, `Image.linkBytes_modify_same`: the words of a slot are changed.
-/

namespace DoubleArrayTrie

/-- The bytes of the words of a slot. -/
def Slot.words (s : Slot) : List UInt8 := Integer.encode 4 s.base ++ Integer.encode 4 s.check

@[simp] theorem Slot.length_words (s : Slot) : s.words.length = 8 := by
  simp [words]

/-- The bytes of the labels of a slot. -/
def Slot.labels (s : Slot) : List UInt8 := [s.sibling, s.child]

/-- The bytes of a block. -/
def Block.bytes (b : Block) : List UInt8 :=
  Integer.encode 4 b.prev ++ Integer.encode 4 b.next ++ Integer.encode 2 b.free ++
    Integer.encode 2 b.reject ++ Integer.encode 4 b.trials ++ Integer.encode 4 b.head

@[simp] theorem Block.length_bytes (b : Block) : b.bytes.length = 20 := by
  simp [bytes]

namespace Image

/-- What is written before the end of a byte string does not depend on what follows. -/
theorem overwrite_append {n : Nat} {bytes content : List UInt8} (h : n + bytes.length ≤ content.length)
    (before after : List UInt8) : overwrite (before.length + n) bytes (before ++ (content ++ after)) =
      before ++ (overwrite n bytes content ++ after) := by
  unfold overwrite
  rw [List.take_length_add_append, List.take_append_of_le_length (by omega), Nat.add_assoc,
    List.drop_length_add_append, List.drop_append_of_le_length h]
  simp only [List.append_assoc]

theorem length_overwrite {n : Nat} {bytes content : List UInt8}
    (h : n + bytes.length ≤ content.length) :
    (overwrite n bytes content).length = content.length := by
  unfold overwrite
  simp only [List.length_append, List.length_take, List.length_drop]
  omega

/-- The first bytes are overwritten. -/
theorem overwrite_front {old new : List UInt8} (h : old.length = new.length) (after : List UInt8) :
    overwrite 0 new (old ++ after) = new ++ after :=
  @overwrite_middle [] old new 0 rfl h after

/-- The last bytes are overwritten. -/
theorem overwrite_back {before old new : List UInt8} {n : Nat} (hbefore : before.length = n)
    (h : old.length = new.length) : overwrite n new (before ++ old) = before ++ new := by
  have hmiddle := overwrite_middle hbefore h []
  rwa [List.append_nil, List.append_nil] at hmiddle

/-- All bytes are overwritten. -/
theorem overwrite_all {old new : List UInt8} (h : old.length = new.length) :
    overwrite 0 new old = new := @overwrite_back [] old new 0 rfl h

/-- **One of many records is changed** by writing over bytes of it. -/
theorem flatMap_modify {α : Type} {w : Nat} {f : α → List UInt8} (hf : ∀ a, (f a).length = w)
    {items : List α} {i : Nat} (hi : i < items.length) {g : α → α} {n : Nat} {bytes : List UInt8}
    (hg : ∀ a, f (g a) = overwrite n bytes (f a)) (hn : n + bytes.length ≤ w) :
    (items.modify i g).flatMap f = overwrite (i * w + n) bytes (items.flatMap f) := by
  obtain ⟨before, a, after, hitems, hbefore, hmodify⟩ := List.exists_of_modify g hi
  rw [hmodify, hitems, List.flatMap_append, List.flatMap_append, List.flatMap_cons,
    List.flatMap_cons, hg, ← hbefore, ← length_flatMap_of_fixed hf before]
  exact (overwrite_append (by rwa [hf]) _ _).symm

/-- What a change leaves alone has the same bytes after it. -/
theorem flatMap_modify_same {α : Type} {f : α → List UInt8} {g : α → α} (hg : ∀ a, f (g a) = f a)
    (items : List α) (i : Nat) : (items.modify i g).flatMap f = items.flatMap f := by
  induction items generalizing i with
  | nil => simp
  | cons a items ih =>
    cases i with
    | zero => simp [hg]
    | succ i => simp [ih]

/-! ### The words of a slot -/

theorem nodeBytes_modify {slots : Array Slot} {i n : Nat} {bytes : List UInt8} (hi : i < slots.size)
    {f : Slot → Slot} (hn : n + bytes.length ≤ 8)
    (hf : ∀ s : Slot, (f s).words = overwrite n bytes s.words) :
    nodeBytes (slots.modify i f) = overwrite (i * 8 + n) bytes (nodeBytes slots) := by
  unfold nodeBytes
  rw [Array.toList_modify]
  exact flatMap_modify Slot.length_words hi hf hn

/-- A change to the words of a slot is no change to its labels. -/
theorem linkBytes_modify_same {f : Slot → Slot} (hf : ∀ s : Slot, (f s).labels = s.labels)
    (slots : Array Slot) (i : Nat) : linkBytes (slots.modify i f) = linkBytes slots := by
  unfold linkBytes
  rw [Array.toList_modify]
  exact flatMap_modify_same (f := Slot.labels) hf _ i

end Image

end DoubleArrayTrie
