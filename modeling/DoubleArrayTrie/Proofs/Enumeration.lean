import Mathlib.Data.List.Forall2
import DoubleArrayTrie.Proofs.Lockstep
import DoubleArrayTrie.Proofs.Refinement
import DoubleArrayTrie.Proofs.Trie.Enumerating
import DoubleArrayTrie.Proofs.Trie.Spelling

/-!
# A trie lists its entries

A search for the keys that begin with given bytes ends, and comes to each of these keys once. Nothing
but the entries of the trie decides what is found; only the order is that of the chains, which is the
order of byte strings if the trie keeps siblings in order.

* `Yields`: the answers that a search gives until it ends.
* `Trie.Completes`: matches for all keys that begin with a stem.
* `Trie.Lists`: all that is listed, for any stem and for all keys.
* `Trie.lists_run`: this is so after any calls on a new trie.
-/

namespace DoubleArrayTrie

/-! ### Searches -/

section Search

variable {σ α : Type} {next : σ → Option α × σ} {s : σ} {as : List α} {n : Nat}

/-- From a state on the search gives these answers, one after the other, and then no more. -/
inductive Yields (next : σ → Option α × σ) : σ → List α → Prop
  | nil {s : σ} (h : (next s).1 = none) : Yields next s []
  | cons {s s' : σ} {a : α} {as : List α} (h : next s = (some a, s')) (hs : Yields next s' as) :
      Yields next s (a :: as)

/-- All answers of a search that ends are collected, if there is room for them. -/
theorem Yields.drain_eq (h : Yields next s as) (hn : as.length ≤ n) : drain next n s = as := by
  induction h generalizing n with
  | @nil s hend =>
    cases n with
    | zero => rfl
    | succ n =>
      unfold drain
      generalize next s = x at hend ⊢
      obtain ⟨a?, s'⟩ := x
      obtain rfl : a? = none := hend
      rfl
  | cons hstep _ ih =>
    cases n with
    | zero => simp at hn
    | succ n =>
      unfold drain
      rw [hstep]
      exact congrArg _ (ih (Nat.le_of_succ_le_succ hn))

end Search

/-- Results that are all there are collected. -/
theorem mapM_eq_ok {α β ε : Type} {f : α → Except ε β} {as : List α} {bs : List β}
    (h : List.Forall₂ (fun a b => f a = .ok b) as bs) : as.mapM f = .ok bs := by
  induction h with
  | nil => rfl
  | cons hab _ ih =>
    rw [List.mapM_cons, hab, ih]
    rfl

/-! ### Lists of entries -/

/-- A key with its value. -/
def Entries.entry (M : Entries) (key : Key) : Key × Int32 := (key, (M.lookup key).getD 0)

theorem Entries.map_fst_entry (M : Entries) (keys : List Key) :
    (keys.map M.entry).map (·.1) = keys := by
  rw [List.map_map]
  exact List.map_id keys

/-- The list has each entry once, and nothing else. -/
def Entries.Lists (M : Entries) (es : List (Key × Int32)) : Prop :=
  (es.map (·.1)).Nodup ∧ ∀ key value, (key, value) ∈ es ↔ M.lookup key = some value

namespace Trie

variable {t : Trie} {M : Entries} {stem : Key} {ms : List Match} {rests : List Key}

/-- The matches are for the entries whose keys begin with `stem`, each one once, and `rests` are what
these keys have after it. -/
structure Completes (t : Trie) (M : Entries) (stem : Key) (ms : List Match) (rests : List Key) :
    Prop where
  /-- The length, the bytes and the value of a match are those of its key. -/
  bytes : List.Forall₂ (fun m rest => m.length = rest.length ∧ t.suffixOf m = .ok rest ∧
    M.lookup (stem ++ rest) = some m.value) ms rests
  nodup : rests.Nodup
  mem : ∀ rest, rest ∈ rests ↔ stem ++ rest ∈ M
  ordered : t.config.ordered = true → (rests.map (stem ++ ·)).Pairwise (· < ·)

/-- What a trie lists are its entries. -/
structure Lists (t : Trie) (M : Entries) : Prop where
  /-- A search ends, and gives all matches until then. -/
  yields : ∀ stem, Yields (Predictor.next t) (t.predictor stem) (t.predict stem)
  completes : ∀ stem, ∃ rests, t.Completes M stem (t.predict stem) rests
  /-- Bytes that no key begins with, such as those with a zero byte, have no matches. -/
  none : ∀ stem, 0 ∈ stem ∨ (∀ key ∈ M, ¬ stem <+: key) → t.predict stem = []
  entries : ∃ es, t.entries = .ok es ∧ t.keys = .ok (es.map (·.1)) ∧ t.values = es.map (·.2) ∧
    M.Lists es ∧ (t.config.ordered = true → (es.map (·.1)).Pairwise (· < ·))

/-! ### Matches -/

/-- The match at a cursor. -/
def matchAt (k : Cursor) : Match := ⟨k.value, k.depth, k.node⟩

theorem yields_of_visits {root : Nat} {k? k?' : Option Cursor} {ks : List Cursor}
    (h : t.pool.Visits t.config root k? ks k?') (hend : k?' = none) :
    Yields (Predictor.next t) ⟨root, k?⟩ (ks.map matchAt) := by
  induction h with
  | refl =>
    subst hend
    exact .nil rfl
  | step _ ih => exact .cons rfl (ih hend)

section Listing

variable {T : Outline} {off : Trail → Nat} {q s u : Trail}

/-- What a node of a stem has after it. -/
theorem drop_reverse_append (v s : Trail) : (v ++ s).reverse.drop s.length = v.reverse := by
  rw [List.reverse_append, List.drop_left' (List.length_reverse ..)]

/-- The match for a node that is listed is the one for its key. -/
theorem match_of_mem_listing {n : Nat} (hholds : T.Holds t.config q fun q => M.lookup q.reverse)
    (hs : T.Mem s) (h0 : 0 ∉ s) (off : Trail → Nat) (hu : u ∈ T.listing t.config n s) :
    ∃ v value, u = v ++ s ∧ T.Mem (v ++ s) ∧ M.lookup (s.reverse ++ v.reverse) = some value ∧
      matchAt (T.cursor t.config off s u) = ⟨value, v.length, locate off (v ++ s)⟩ := by
  obtain ⟨⟨v, rfl⟩, hmem, hu0, hvalue⟩ := Outline.of_mem_listing hs h0 hu
  have hheld := hholds.value (v ++ s) hmem hu0
  rw [List.reverse_append] at hheld
  rw [hheld, Option.isSome_map] at hvalue
  obtain ⟨value, hlookup⟩ := Option.isSome_iff_exists.mp hvalue
  refine ⟨v, value, rfl, hmem, hlookup, ?_⟩
  unfold matchAt Outline.cursor
  rw [hheld, hlookup, List.length_append, Nat.add_sub_cancel]
  exact congrArg (fun x => (⟨x, v.length, locate off (v ++ s)⟩ : Match)) (Int32.ofInt_toInt value)

/-- A node that is listed is that of what its key has after the stem. -/
theorem append_drop_of_mem_listing {n : Nat}
    (hholds : T.Holds t.config q fun q => M.lookup q.reverse) (hs : T.Mem s) (h0 : 0 ∉ s)
    (hu : u ∈ T.listing t.config n s) : s.reverse ++ u.reverse.drop s.length = u.reverse := by
  obtain ⟨v, -, rfl, -⟩ := match_of_mem_listing hholds hs h0 (fun _ => 0) hu
  rw [drop_reverse_append, List.reverse_append]

/-- The keys that are listed come in the order of the chains. -/
theorem pairwise_rests {S : Key → UInt8 → UInt8 → Prop}
    (hholds : T.Holds t.config q fun q => M.lookup q.reverse) (hs : T.Mem s) (h0 : 0 ∉ s)
    (hS : ∀ q, T.Mem q → 0 ∉ q → ((T.kids q).filter (· ≠ 0)).Pairwise (S q.reverse)) (n : Nat) :
    (((T.listing t.config n s).map fun u => u.reverse.drop s.length).map
      (s.reverse ++ ·)).Pairwise (Precedes S) := by
  rw [List.map_map, List.pairwise_map]
  refine (Outline.pairwise_listing (c := t.config) hs h0 hS n).imp_of_mem fun {u v} hu hv huv => ?_
  rwa [Function.comp_apply, Function.comp_apply, append_drop_of_mem_listing hholds hs h0 hu,
    append_drop_of_mem_listing hholds hs h0 hv]

variable (hlays : t.pool.Lays t.config T off) (hs : T.Mem s) (h0 : 0 ∉ s)

include hlays hs h0

/-- The search below a node comes to all nodes that are listed there. -/
theorem yields_listing (hfull : T.Full t.config s) :
    Yields (Predictor.next t) ⟨locate off s, t.pool.firstKey? t.config (locate off s) 0⟩
      ((T.listing t.config t.pool.size s).map fun u => matchAt (T.cursor t.config off s u)) := by
  have hall := hlays.visits_listing List.suffix_rfl hs h0 hfull fun u hu =>
    (hlays.length_lt_size hu).trans_le (Nat.le_add_left ..)
  rw [Nat.sub_self, Pool.resume_zero] at hall
  have hyields := yields_of_visits hall rfl
  rwa [List.map_map] at hyields

/-- So the search for the keys that begin with the stem comes to them, and they are collected. -/
theorem predict_eq_listing (hfull : T.Full t.config s) :
    Yields (Predictor.next t) (t.predictor s.reverse) (t.predict s.reverse) ∧
      t.predict s.reverse =
        (T.listing t.config t.pool.size s).map fun u => matchAt (T.cursor t.config off s u) := by
  have hstart : t.predictor s.reverse =
      ⟨locate off s, t.pool.firstKey? t.config (locate off s) 0⟩ := by
    unfold Trie.predictor
    rw [hlays.walk_root.mpr ⟨by rwa [List.mem_reverse], by rwa [List.reverse_reverse], rfl⟩,
      List.reverse_reverse]
  have hyields := yields_listing hlays hs h0 hfull
  rw [← hstart] at hyields
  have hpredict : t.predict s.reverse = _ := hyields.drain_eq (by
    rw [List.length_map]
    exact (hlays.length_le_size (Outline.nodup_listing hlays.sound hs h0 _) fun u hu =>
      (Outline.of_mem_listing hs h0 hu).2.1).trans hlays.draws.kept.size_le)
  rw [hpredict]
  exact ⟨hyields, rfl⟩

variable (hholds : T.Holds t.config q fun q => M.lookup q.reverse)

include hholds

/-- The node of each key that begins with the stem is listed. -/
theorem mem_listing_of_mem {rest : Key} (hM : s.reverse ++ rest ∈ M) :
    rest.reverse ++ s ∈ T.listing t.config t.pool.size s := by
  have hlookup : M.lookup (rest.reverse ++ s).reverse ≠ none := by
    rw [List.reverse_append, List.reverse_reverse]
    exact mt Finmap.lookup_eq_none.mp (not_not.mpr hM)
  have hu0 := (hholds.key _ hlookup).2
  have hmem := (hholds.mem _ hu0).mpr (.inr ⟨_, List.suffix_rfl, hlookup⟩)
  have hvalue : (T.value? t.config (rest.reverse ++ s)).isSome := by
    rw [hholds.value _ hmem hu0, Option.isSome_map]
    exact Option.isSome_iff_ne_none.mpr hlookup
  have hdepth := (hlays.length_lt_size hmem).trans_le (Nat.le_add_left _ s.length)
  exact (Outline.mem_listing_iff hs h0 hdepth).mpr ⟨List.suffix_append .., hmem, hu0, hvalue⟩

/-- The nodes that are listed below the node of a stem are those of the keys that begin with it. -/
theorem completes_listing :
    t.Completes M s.reverse
      ((T.listing t.config t.pool.size s).map fun u => matchAt (T.cursor t.config off s u))
      ((T.listing t.config t.pool.size s).map fun u => u.reverse.drop s.length) := by
  have hkey : ∀ u ∈ T.listing t.config t.pool.size s,
      s.reverse ++ u.reverse.drop s.length = u.reverse := fun u hu =>
    append_drop_of_mem_listing hholds hs h0 hu
  refine ⟨?_, ?_, fun rest => ?_, fun hordered => ?_⟩
  · rw [List.forall₂_map_left_iff, List.forall₂_map_right_iff, List.forall₂_same]
    intro u hu
    obtain ⟨v, value, rfl, hmem, hlookup, hmatch⟩ := match_of_mem_listing hholds hs h0 off hu
    rw [hmatch, drop_reverse_append]
    exact ⟨(List.length_reverse ..).symm, hlays.suffix_eq hmem, hlookup⟩
  · refine (Outline.nodup_listing hlays.sound hs h0 _).map_on fun u hu v hv huv => ?_
    rw [← List.reverse_inj, ← hkey u hu, ← hkey v hv, huv]
  · rw [List.mem_map]
    constructor
    · rintro ⟨u, hu, rfl⟩
      obtain ⟨v, value, rfl, -, hlookup, -⟩ := match_of_mem_listing hholds hs h0 off hu
      rw [drop_reverse_append, ← Finmap.lookup_isSome, hlookup]
      rfl
    · intro hM
      refine ⟨_, mem_listing_of_mem hlays hs h0 hholds hM, ?_⟩
      rw [drop_reverse_append, List.reverse_reverse]
  · exact (pairwise_rests hholds hs h0
      (fun q _ _ => (hlays.sound.ordered hordered q).filter _) t.pool.size).imp Precedes.lt

end Listing

/-- **The keys that begin with a stem** are found one after the other, in the order of the chains. -/
theorem Shows.predict {T : Outline} (h : t.Shows T M) (stem : Key) :
    Yields (Predictor.next t) (t.predictor stem) (t.predict stem) ∧
      ∃ rests, t.Completes M stem (t.predict stem) rests ∧ ∀ S : Key → UInt8 → UInt8 → Prop,
        (∀ q, T.Mem q → 0 ∉ q → ((T.kids q).filter (· ≠ 0)).Pairwise (S q.reverse)) →
          (rests.map (stem ++ ·)).Pairwise (Precedes S) := by
  have hkey : ∀ {key}, key ∈ M → key ≠ [] ∧ 0 ∉ key := h.holds.key
  obtain ⟨off, hlays, hholds⟩ := h
  by_cases hstem : 0 ∉ stem ∧ T.Mem stem.reverse
  · have h0 : 0 ∉ stem.reverse := by rw [List.mem_reverse]; exact hstem.1
    have hcompletes := completes_listing hlays hstem.2 h0 hholds
    have hsorted := fun S hS => pairwise_rests (S := S) hholds hstem.2 h0 hS t.pool.size
    obtain ⟨hyields, hpredict⟩ := predict_eq_listing hlays hstem.2 h0 (hholds.full _)
    rw [← hpredict] at hcompletes
    rw [List.reverse_reverse] at hyields hcompletes hsorted
    exact ⟨hyields, _, hcompletes, hsorted⟩
  · have hstart : t.predictor stem = ⟨0, none⟩ := by
      unfold Trie.predictor
      rw [hlays.walk_of_not hstem]
    have hyields : Yields (Predictor.next t) (t.predictor stem) [] := by
      rw [hstart]
      exact .nil rfl
    unfold Trie.predict
    rw [hyields.drain_eq (Nat.zero_le _)]
    refine ⟨hyields, [], ⟨.nil, List.nodup_nil, fun rest => ?_, fun _ => List.Pairwise.nil⟩,
      fun _ _ => List.Pairwise.nil⟩
    simp only [List.not_mem_nil, false_iff]
    intro hM
    obtain ⟨-, h0⟩ := hkey hM
    have hstem0 : 0 ∉ stem := fun hmem => h0 (List.mem_append_left _ hmem)
    refine hstem ⟨hstem0, (hholds.mem _ (by rwa [List.mem_reverse])).mpr ?_⟩
    exact (mem_iff_begins M [] stem).mpr (.inr ⟨_, hM, List.prefix_append ..⟩)

theorem Holds.predict (h : t.Holds M) (stem : Key) :
    Yields (Predictor.next t) (t.predictor stem) (t.predict stem) ∧
      ∃ rests, t.Completes M stem (t.predict stem) rests := by
  obtain ⟨T, hT⟩ := h
  obtain ⟨hyields, rests, hcompletes, -⟩ := Shows.predict hT stem
  exact ⟨hyields, rests, hcompletes⟩

/-- The matches for all keys are spelled out as their entries, -/
theorem Completes.spelled (h : t.Completes M [] ms rests) : List.Forall₂
    (fun m e => ((t.suffixOf m).map fun key => (key, m.value)) = .ok e) ms (rests.map M.entry) := by
  rw [List.forall₂_map_right_iff]
  refine h.bytes.imp fun m key hm => ?_
  have hlookup : M.lookup key = some m.value := hm.2.2
  rw [hm.2.1, Entries.entry, hlookup]
  rfl

/-- and these are all entries. -/
theorem Completes.lists (h : t.Completes M [] ms rests) : M.Lists (rests.map M.entry) := by
  refine ⟨by rw [Entries.map_fst_entry]; exact h.nodup, fun key value => ?_⟩
  rw [List.mem_map]
  constructor
  · rintro ⟨key, hkey, heq⟩
    obtain ⟨rfl, rfl⟩ := Prod.mk.inj heq
    obtain ⟨value, hvalue⟩ := Finmap.mem_iff.mp ((h.mem key).mp hkey)
    have hlookup : M.lookup key = some value := hvalue
    rw [hlookup]
    rfl
  · intro hlookup
    refine ⟨key, (h.mem key).mpr (Finmap.mem_iff.mpr ⟨value, hlookup⟩), ?_⟩
    rw [Entries.entry, hlookup, Option.getD_some]

/-- **All entries are listed.** -/
theorem Completes.entries (h : t.Completes M [] (t.predict []) rests) :
    ∃ es, t.entries = .ok es ∧ t.keys = .ok (es.map (·.1)) ∧ t.values = es.map (·.2) ∧
      M.Lists es ∧ (t.config.ordered = true → (es.map (·.1)).Pairwise (· < ·)) := by
  refine ⟨rests.map M.entry, mapM_eq_ok h.spelled, ?_, ?_, h.lists, fun hordered => ?_⟩
  · rw [Entries.map_fst_entry]
    exact mapM_eq_ok (h.bytes.imp fun m key hm => hm.2.1)
  · rw [List.map_map, Trie.values, ← List.forall₂_eq_eq_eq, List.forall₂_map_left_iff,
      List.forall₂_map_right_iff]
    refine h.bytes.imp fun m key hm => ?_
    have hlookup : M.lookup key = some m.value := hm.2.2
    rw [Function.comp_apply, Entries.entry, hlookup, Option.getD_some]
  · have hsorted := h.ordered hordered
    rw [Entries.map_fst_entry]
    rwa [show rests.map ([] ++ ·) = rests from List.map_id rests] at hsorted

/-- **What a trie lists are its entries.** -/
theorem Holds.lists (h : t.Holds M) : t.Lists M where
  yields stem := (h.predict stem).1
  completes stem := (h.predict stem).2
  none stem hstem := by
    obtain ⟨rests, hcompletes⟩ := (h.predict stem).2
    rcases hms : t.predict stem with _ | ⟨m, ms⟩
    · rfl
    · exfalso
      obtain ⟨rest, hrest⟩ : ∃ rest, rest ∈ rests := by
        have hlength := hcompletes.bytes.length_eq
        rw [hms] at hlength
        exact List.exists_mem_of_length_pos (by rw [← hlength]; exact Nat.succ_pos _)
      have hM := (hcompletes.mem rest).mp hrest
      rcases hstem with h0 | hno
      · exact (h.key hM).2 (List.mem_append_left _ h0)
      · exact hno _ hM (List.prefix_append ..)
  entries := by
    obtain ⟨rests, hcompletes⟩ := (h.predict []).2
    exact hcompletes.entries

/-- A trie with the same slots lists the same. -/
theorem SameSlots.lists {u : Trie} (h : t.SameSlots u) (hu : u.Lists M) : t.Lists M where
  yields stem := by
    rw [h.next_eq, h.predictor_eq, h.predict_eq]
    exact hu.yields stem
  completes stem := by
    obtain ⟨rests, hrests⟩ := hu.completes stem
    refine ⟨rests, ?_, hrests.nodup, hrests.mem, fun hordered => ?_⟩
    · rw [h.predict_eq, h.suffixOf_eq]
      exact hrests.bytes
    · rw [h.1] at hordered
      exact hrests.ordered hordered
  none stem hstem := by
    rw [h.predict_eq]
    exact hu.none stem hstem
  entries := by
    rw [h.entries_eq, h.keys_eq, h.values_eq, h.1]
    exact hu.entries

/-- **After any calls on a new trie it lists its entries**, whatever the encoding and the valid
options: the searches for the keys that begin with a stem, and the lists of all keys. -/
theorem lists_run {o : Options} (ho : o.validate = .ok ()) (e : Encoding) (calls : List Call) :
    ∃ t, Trie.create e o = .ok t ∧ (t.run calls).1.config.ordered = o.ordered ∧
      (t.run calls).1.Lists (Entries.run e ∅ calls).1 := by
  obtain ⟨hholds, hconfig, -⟩ := run_holds ho e calls
  exact ⟨_, (create_eq ho e).1, by rw [hconfig], hholds.lists⟩

/-- A key, another that goes on from it, and a third that comes before both. -/
theorem lists_run_reduced : Options.validate {} = .ok () ∧ ∃ t, Trie.create .reduced {} = .ok t ∧
    (t.run [.insert [98] 1, .insert [98, 99] 2, .insert [97] 3]).1.Lists
      (Entries.run .reduced ∅ [.insert [98] 1, .insert [98, 99] 2, .insert [97] 3]).1 := by
  obtain ⟨t, ht, -, hlists⟩ := lists_run (o := {}) rfl .reduced
    [.insert [98] 1, .insert [98, 99] 2, .insert [97] 3]
  exact ⟨rfl, t, ht, hlists⟩

end Trie

end DoubleArrayTrie
