import DoubleArrayTrie.Session.Basic
import DoubleArrayTrie.Proofs.Agreement
import DoubleArrayTrie.Proofs.Image.Guarded

/-!
# Tries are loaded

A byte string is loaded just if it begins with a valid image in the encoding that is asked for, and
how it is loaded makes no difference but to where the records live.

* `Session.load_eq`, `Session.load_refused`: what a session does with a file.
* `Image.loading`: for any bytes at all, what is read, what is refused, and what is written back.
-/

namespace DoubleArrayTrie

theorem Named.lookup_assign {α : Type} (names : Named α) (name : String) (a : α) :
    (Named.assign names name a).lookup name = some a := by
  induction names with
  | nil => simp [Named.assign]
  | cons entry rest ih =>
    obtain ⟨n, b⟩ := entry
    unfold Named.assign
    split_ifs with hn
    · simp [hn]
    · rw [List.lookup_cons, beq_eq_false_iff_ne.mpr (Ne.symm hn)]
      exact ih

namespace Session

variable {s : Session} {file : String} {number : Nat} {e : Encoding} {mode : LoadMode}
  {content : List UInt8} {t : Trie}

theorem trie?_eq {name : String} {x : Resident} (hcurrent : s.current = some name)
    (htrie : s.tries.lookup name = some x) : s.trie? = some x.trie := by
  unfold trie? resident?
  rw [hcurrent, Option.bind_some, htrie]
  rfl

theorem lookup_putFile (s : Session) (name : String) (content : List UInt8) :
    (s.putFile name content).files.lookup name = some ⟨s.nextFile, content⟩ := Named.lookup_assign ..

/-- The session after a trie was read from a file. -/
theorem load_eq (hfile : s.files.lookup file = some ⟨number, content⟩)
    (hread : Trie.ofImage? e mode content = .ok t) (name : String) :
    ∃ s', s.load name e file mode = .ok s' ∧ s'.current = some name ∧ s'.files = s.files ∧
      s'.tries.lookup name = some ⟨t, mode.sharing?.map fun x => ⟨number, x, t.pool.capacity⟩⟩ := by
  unfold load
  rw [hfile]
  dsimp only
  rw [hread]
  exact ⟨_, rfl, rfl, rfl, Named.lookup_assign ..⟩

/-- A file that is refused leaves the session as it was. -/
theorem load_refused {err : Error} (hfile : s.files.lookup file = some ⟨number, content⟩)
    (hread : Trie.ofImage? e mode content = .error err) (name : String) :
    s.load name e file mode = .error (.refused err) := by
  unfold load
  rw [hfile]
  dsimp only
  rw [hread]

end Session

/-- How a trie is loaded shows only in where its records live. -/
theorem Trie.ofValid_alike (b : List UInt8) (e : Encoding) (mode mode' : LoadMode) :
    (ofValid b e mode).Alike (ofValid b e mode') := ⟨rfl, rfl⟩

/-- **What is loaded from any bytes at all.** Reading them never leads out of bounds, neither those of
a byte string nor those of a file. They are accepted just if they begin with a valid image in the
encoding, refused with the name of the other encoding just if they begin with a valid image in that,
and else refused as corrupt. What is accepted is written back as it was. A file gives the same trie, or
is refused for the same cause, in each mode. -/
theorem Image.loading (b : List UInt8) (e : Encoding) :
    (readBytes? e b = some (Trie.ofImage? e .copy b) ∧
      ∀ mode, mode ≠ .copy → readFile? e b = some (Trie.ofImage? e mode b)) ∧
    ((∃ t, Trie.ofImage? e .copy b = .ok t) ↔ Valid b e) ∧
    (∀ found, Trie.ofImage? e .copy b = .error (.encodingMismatch e found) ↔
      found ≠ e ∧ Valid b found) ∧
    ((∃ cause, Trie.ofImage? e .copy b = .error (.corrupt cause)) ↔ ∀ found, ¬ Valid b found) ∧
    (∀ t, Trie.ofImage? e .copy b = .ok t → t.image = b.take (Image.length b)) ∧
    ∀ (s : Session) (name file : String) (number : Nat) (mode : LoadMode),
      s.files.lookup file = some ⟨number, b⟩ →
      (∀ t, Trie.ofImage? e .copy b = .ok t → ∃ s' u, s.load name e file mode = .ok s' ∧
        s'.trie? = some u ∧ u.Alike t) ∧
      ∀ err, Trie.ofImage? e .copy b = .error err → s.load name e file mode = .error (.refused err) := by
  refine ⟨⟨readBytes?_eq e b, fun mode hmode => readFile?_eq e b hmode⟩, ?_, fun found => ?_,
    Trie.ofImage?_eq_corrupt_iff, fun t => Trie.image_of_ofImage?, fun s name file number mode hfile =>
      ⟨fun t ht => ?_, fun err herr => ?_⟩⟩
  · constructor
    · rintro ⟨t, ht⟩
      exact (Trie.ofImage?_eq_ok_iff.mp ht).1
    · exact fun hvalid => ⟨_, Trie.ofImage?_eq_ok_iff.mpr ⟨hvalid, rfl⟩⟩
  · rw [Trie.ofImage?_eq_mismatch_iff]
    exact ⟨fun h => h.2, fun h => ⟨rfl, h⟩⟩
  · obtain ⟨hvalid, rfl⟩ := Trie.ofImage?_eq_ok_iff.mp ht
    have hread : Trie.ofImage? e mode b = .ok (Trie.ofValid b e mode) :=
      Trie.ofImage?_eq_ok_iff.mpr ⟨hvalid, rfl⟩
    obtain ⟨s', hload, hcurrent, -, htrie⟩ := Session.load_eq hfile hread name
    exact ⟨s', _, hload, Session.trie?_eq hcurrent htrie, Trie.ofValid_alike ..⟩
  · exact Session.load_refused hfile ((Trie.ofImage?_mode e mode b).trans (by rw [herr]; rfl)) name

end DoubleArrayTrie
