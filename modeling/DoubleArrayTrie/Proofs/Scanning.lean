import DoubleArrayTrie.Proofs.Beginnings

/-!
# The places of a text where stored keys stand

A search through a text looks for the beginnings of what is left of it, and starts again one byte on
when there are no more. It is to find what is found by trying all bounds, and in the same order.

* `Entries.places`: the places that are found by trying all bounds.
* `returns_scanner`: what the calls of a search return, from any start on.
* `Trie.Scans`: the places, each one once, by their start and then by their end.
* `Trie.scans_run`: this is so after any calls on a new trie.
-/

namespace DoubleArrayTrie

/-! ### Trying all bounds -/

namespace Entries

variable {M : Entries} {text : Key} {place : TextMatch}

/-- The places of a text where a key stands, by all bounds that there are. -/
def places (M : Entries) (text : Key) : List TextMatch :=
  (List.range text.length).flatMap fun start =>
    (List.range' (start + 1) (text.length - start)).filterMap fun stop =>
      (M.lookup (text.extract start stop)).map fun value => ⟨start, stop, value⟩

/-- **The places** are those between whose bounds a key stands. -/
theorem mem_places : place ∈ M.places text ↔ place.start < place.stop ∧ place.stop ≤ text.length ∧
    M.lookup (text.extract place.start place.stop) = some place.value := by
  obtain ⟨start, stop, value⟩ := place
  simp only [places, List.mem_flatMap, List.mem_range, List.mem_filterMap, List.mem_range'_1,
    Option.map_eq_some_iff, TextMatch.mk.injEq]
  constructor
  · rintro ⟨_, _, _, _, _, hlookup, rfl, rfl, rfl⟩
    exact ⟨by omega, by omega, hlookup⟩
  · rintro ⟨hlt, hle, hlookup⟩
    exact ⟨start, by omega, stop, by omega, value, hlookup, rfl, rfl, rfl⟩

/-- **They come** by their start and then by their end, so none comes twice. -/
theorem pairwise_places (M : Entries) (text : Key) : (M.places text).Pairwise fun a b =>
    a.start < b.start ∨ a.start = b.start ∧ a.stop < b.stop := by
  rw [places, List.pairwise_flatMap]
  constructor
  · intro start _
    rw [List.pairwise_filterMap]
    refine (List.pairwise_lt_range' ..).imp fun {stop stop'} hlt a ha b hb => ?_
    obtain ⟨_, _, rfl⟩ := Option.map_eq_some_iff.mp ha
    obtain ⟨_, _, rfl⟩ := Option.map_eq_some_iff.mp hb
    exact .inr ⟨rfl, hlt⟩
  · refine List.pairwise_lt_range.imp fun {start start'} hlt a ha b hb => ?_
    obtain ⟨_, _, ha⟩ := List.mem_filterMap.mp ha
    obtain ⟨_, _, hb⟩ := List.mem_filterMap.mp hb
    obtain ⟨_, _, rfl⟩ := Option.map_eq_some_iff.mp ha
    obtain ⟨_, _, rfl⟩ := Option.map_eq_some_iff.mp hb
    exact .inl hlt

/-! ### From one start to the next -/

/-- The places at the beginning of a text that `start` bytes stand before. -/
def placesAt (M : Entries) (start : Nat) (text : Key) : List TextMatch :=
  (List.range' 1 text.length).filterMap fun n =>
    (M.lookup (text.take n)).map fun value => ⟨start, start + n, value⟩

/-- All places of such a text. -/
def placesFrom (M : Entries) (start : Nat) : Key → List TextMatch
  | [] => []
  | byte :: text => M.placesAt start (byte :: text) ++ M.placesFrom (start + 1) text

theorem placesFrom_eq (M : Entries) (start : Nat) (text : Key) : M.placesFrom start text =
    (List.range text.length).flatMap fun i => M.placesAt (start + i) (text.drop i) := by
  induction text generalizing start with
  | nil => rfl
  | cons byte text ih =>
    rw [placesFrom, ih, List.length_cons, List.range_succ_eq_map, List.flatMap_cons,
      List.flatMap_map]
    refine congrArg _ (congrArg (List.flatMap · _) (funext fun i => ?_))
    rw [List.drop_succ_cons, Nat.add_assoc, Nat.add_comm 1]

/-- Where a text is cut off at a start, the bounds after it are told from there. -/
theorem placesAt_drop (M : Entries) (start : Nat) (text : Key) : M.placesAt start (text.drop start) =
    (List.range' (start + 1) (text.length - start)).filterMap fun stop =>
      (M.lookup (text.extract start stop)).map fun value => ⟨start, stop, value⟩ := by
  rw [placesAt, List.length_drop, ← List.map_add_range', List.filterMap_map]
  refine congrArg (List.filterMap · _) (funext fun n => ?_)
  rw [Function.comp_apply, List.extract_eq_take_drop, Nat.add_sub_cancel_left]

theorem placesFrom_zero (M : Entries) (text : Key) : M.placesFrom 0 text = M.places text := by
  rw [placesFrom_eq, places]
  refine congrArg (List.flatMap · _) (funext fun i => ?_)
  rw [Nat.zero_add, placesAt_drop]

/-- There are no more places than bounds. -/
theorem length_placesFrom_le (M : Entries) (start : Nat) (text : Key) :
    (M.placesFrom start text).length ≤ text.length * text.length := by
  induction text generalizing start with
  | nil => exact Nat.le_refl _
  | cons byte text ih =>
    have hat : (M.placesAt start (byte :: text)).length ≤ text.length + 1 := by
      refine (List.length_filterMap_le ..).trans_eq ?_
      rw [List.length_range', List.length_cons]
    rw [placesFrom, List.length_append, List.length_cons, Nat.succ_mul_succ]
    have hfrom := ih (start + 1)
    omega

end Entries

/-! ### Searching a text -/

section

variable {t : Trie} {M : Entries} {start : Nat} {byte : UInt8} {text : Key} {here : PrefixSearch}
  {ms : List Match} {places : List TextMatch}

/-- To start again is to go on with a new search for beginnings. -/
theorem Scanner.restart_eq (t : Trie) (start : Nat) (text : Key) :
    Scanner.restart t start text = Scanner.next t ⟨start, text, .start text⟩ := by
  cases text <;> rfl

/-- At the end of the text a search is at its end. -/
theorem returns_scanner_nil (t : Trie) (start : Nat) :
    Returns (Scanner.next t) ⟨start, [], .start []⟩ [] := by
  refine returns_nil (I := fun s => s.text = [] ∧ s.here.rest = []) (fun s hs => ?_) ⟨rfl, rfl⟩
  obtain ⟨start, text, node, length, rest⟩ := s
  obtain ⟨rfl, rfl⟩ : text = [] ∧ rest = [] := hs
  exact ⟨rfl, rfl, rfl⟩

/-- The matches at one start come first, and then the places that start later. -/
theorem returns_scanner_append (hhere : Returns (PrefixSearch.next t) here ms)
    (hlater : Returns (Scanner.next t) ⟨start + 1, text, .start text⟩ places) :
    Returns (Scanner.next t) ⟨start, byte :: text, here⟩
      (ms.map (fun m => ⟨start, start + m.length, m.value⟩) ++ places) := by
  induction ms generalizing here with
  | nil =>
    have hend : (here.next t).1 = none := hhere 0
    refine hlater.congr ?_
    rw [← Scanner.restart_eq]
    unfold Scanner.next
    dsimp only
    generalize here.next t = x at hend ⊢
    obtain ⟨m?, here'⟩ := x
    obtain rfl : m? = none := hend
    rfl
  | cons m ms ih =>
    obtain ⟨here', hstep, hrest⟩ := hhere.exists_next
    refine returns_cons ?_ (ih hrest)
    unfold Scanner.next
    dsimp only
    rw [hstep]

/-- The matches for the beginnings of a text are the places at its start. -/
theorem Trie.Begins.map_eq_placesAt (h : t.Begins M text) (start : Nat) :
    (t.commonPrefixes text).map (fun m => ⟨start, start + m.length, m.value⟩) =
      M.placesAt start text := by
  rw [h.beginnings, List.map_filterMap, Entries.placesAt]
  refine List.filterMap_congr fun n hn => ?_
  have hlength : (text.take n).length = n := by
    rw [List.length_take]
    rw [List.mem_range'_1] at hn
    omega
  have hstored := congrArg
    (Option.map fun x : Nat × Int32 => TextMatch.mk start (start + x.1) x.2) (h.stored (text.take n))
  rwa [Option.map_map, Option.map_map, hlength] at hstored

/-- **From a start on** the calls of a search return the places of the text that is left. -/
theorem returns_scanner (h : ∀ key, t.Begins M key) (start : Nat) (text : Key) :
    Returns (Scanner.next t) ⟨start, text, .start text⟩ (M.placesFrom start text) := by
  induction text generalizing start with
  | nil => exact returns_scanner_nil t start
  | cons byte text ih =>
    rw [Entries.placesFrom, ← (h (byte :: text)).map_eq_placesAt]
    exact returns_scanner_append (h (byte :: text)).returns (ih (start + 1))

end

/-! ### All places of a text -/

namespace Trie

variable {t : Trie} {M : Entries}

/-- What a search through a text finds: -/
structure Scans (t : Trie) (M : Entries) (text : Key) : Prop where
  /-- Its calls return the places that are collected, and none ever after. -/
  returns : Returns (Scanner.next t) (.ofText text) (t.scan text)
  /-- These are the places that are found by trying all bounds. -/
  places : t.scan text = M.places text
  mem : ∀ place, place ∈ t.scan text ↔ place.start < place.stop ∧ place.stop ≤ text.length ∧
    M.lookup (text.extract place.start place.stop) = some place.value
  /-- They come by their start and then by their end. -/
  sorted : (t.scan text).Pairwise fun a b =>
    a.start < b.start ∨ a.start = b.start ∧ a.stop < b.stop

/-- **The places of a text** where a key stands are found. -/
theorem Holds.scans (h : t.Holds M) (text : Key) : t.Scans M text := by
  have hreturns := returns_scanner h.begins 0 text
  have hroom := M.length_placesFrom_le 0 text
  rw [Entries.placesFrom_zero] at hreturns hroom
  have hscan : t.scan text = M.places text := hreturns.drain_eq hroom
  refine ⟨?_, hscan, fun place => ?_, ?_⟩
  · rw [hscan]
    exact hreturns
  · rw [hscan]
    exact Entries.mem_places
  · rw [hscan]
    exact Entries.pairwise_places M text

/-- **After any calls on a new trie the search through a text finds what trying all bounds finds**:
each place where a stored key stands once, by its start and then by its end, and then no more. -/
theorem scans_run {o : Options} (ho : o.validate = .ok ()) (e : Encoding) (calls : List Call) :
    ∃ t, Trie.create e o = .ok t ∧
      ∀ text, (t.run calls).1.Scans (Entries.run e ∅ calls).1 text := by
  obtain ⟨hholds, -, -⟩ := run_holds ho e calls
  exact ⟨_, (create_eq ho e).1, hholds.scans⟩

/-- Keys that overlap in a text with a zero byte. -/
theorem scans_run_reduced : Options.validate {} = .ok () ∧ ∃ t, Trie.create .reduced {} = .ok t ∧
    (t.run [.insert [97, 98] 1, .insert [98] 2]).1.Scans
      (Entries.run .reduced ∅ [.insert [97, 98] 1, .insert [98] 2]).1 [97, 98, 0, 98] := by
  obtain ⟨t, ht, hscans⟩ := scans_run (o := {}) rfl .reduced [.insert [97, 98] 1, .insert [98] 2]
  exact ⟨rfl, t, ht, hscans _⟩

end Trie

end DoubleArrayTrie
