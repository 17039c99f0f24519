import DoubleArrayTrie.Image.Basic
import DoubleArrayTrie.Proofs.Lockstep

/-!
# Tries that cannot be told apart

Two tries with the same configuration and the same records answer every question in the same way and
have the same image, wherever the records live, and so they do after any calls.

* `Trie.SameAnswers`: what can be asked of a trie.
* `Trie.Agree`: whatever calls the tries get, these return the same, and so do questions after them.
* `Trie.Alike.agree`: tries with the same records agree.
-/

namespace DoubleArrayTrie

namespace Trie

/-- The tries answer every question in the same way, list the same and have the same image. -/
structure SameAnswers (t u : Trie) : Prop where
  find : ∀ key, t.find key = u.find key
  get? : ∀ key, t.get? key = u.get? key
  contains : ∀ key, t.contains key = u.contains key
  predict : ∀ stem, t.predict stem = u.predict stem
  commonPrefixes : ∀ key, t.commonPrefixes key = u.commonPrefixes key
  scan : ∀ text, t.scan text = u.scan text
  suffix : ∀ node length memory, t.suffix node length memory = u.suffix node length memory
  suffixOf : ∀ m, t.suffixOf m = u.suffixOf m
  entries : t.entries = u.entries
  keys : t.keys = u.keys
  values : t.values = u.values
  image : t.image = u.image

/-- Whatever calls the tries get, these return the same, and so do questions after them. -/
def Agree (t u : Trie) : Prop :=
  ∀ calls, (t.run calls).2 = (u.run calls).2 ∧ (t.run calls).1.SameAnswers (u.run calls).1

namespace Alike

variable {t u : Trie}

/-! ### Images -/

theorem header_eq (h : t.Alike u) : Header.ofTrie t = Header.ofTrie u := by
  have hpool := h.2.congr fun p => Header.ofTrie ⟨t.config, p⟩
  obtain ⟨c, p⟩ := t
  obtain ⟨c', q⟩ := u
  obtain rfl : c = c' := h.1
  exact hpool

theorem partsBytes_eq (h : t.Alike u) :
    Image.partsBytes t.pool.slots t.pool.blocks t.pool.rejects =
      Image.partsBytes u.pool.slots u.pool.blocks u.pool.rejects :=
  h.2.congr fun p => Image.partsBytes p.slots p.blocks p.rejects

/-! ### Questions -/

theorem advance_eq (h : t.Alike u) (node length : Nat) (key : Key) :
    PrefixSearch.advance t node length key = PrefixSearch.advance u node length key := by
  induction key generalizing node length with
  | nil => rfl
  | cons label rest ih =>
    simp only [PrefixSearch.advance, h.1, h.2.slots.child?_eq, h.2.slots.valueAt_eq, ih]

theorem prefixNext_eq (h : t.Alike u) : PrefixSearch.next t = PrefixSearch.next u := by
  funext s
  exact h.advance_eq s.node s.length s.rest

theorem restart_eq (h : t.Alike u) (start : Nat) (text : Key) :
    Scanner.restart t start text = Scanner.restart u start text := by
  induction text generalizing start with
  | nil => rfl
  | cons byte text ih => simp only [Scanner.restart, h.prefixNext_eq, ih]

/-- **Tries with the same records give the same answers.** -/
theorem sameAnswers (h : t.Alike u) : t.SameAnswers u where
  find := h.slots.find_eq
  get? key := by
    unfold Trie.get?
    simp only [h.1, h.2.slots.walk_eq, h.2.slots.valueAt_eq]
  contains key := by
    unfold Trie.contains
    rw [h.slots.find_eq]
  predict := h.slots.predict_eq
  commonPrefixes key := by
    unfold Trie.commonPrefixes
    rw [h.prefixNext_eq]
  scan text := by
    have hnext : Scanner.next t = Scanner.next u := by
      funext s
      simp only [Scanner.next, h.prefixNext_eq, h.restart_eq]
    unfold Trie.scan
    rw [hnext]
  suffix := h.slots.suffix_eq
  suffixOf := congrFun h.slots.suffixOf_eq
  entries := h.slots.entries_eq
  keys := h.slots.keys_eq
  values := h.slots.values_eq
  image := by
    unfold Trie.image
    rw [h.header_eq, h.partsBytes_eq]

/-- **Tries with the same records agree**, whatever calls they get. -/
theorem agree (h : t.Alike u) : t.Agree u := fun calls =>
  ⟨(h.run calls).2, (h.run calls).1.sameAnswers⟩

end Alike

/-- A copy has the same records. -/
theorem copy_alike (t : Trie) : t.copy.Alike t := ⟨rfl, rfl⟩

end Trie

end DoubleArrayTrie
