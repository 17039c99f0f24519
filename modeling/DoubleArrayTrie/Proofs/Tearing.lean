import DoubleArrayTrie.Proofs.HalfKeys
import DoubleArrayTrie.Proofs.Sharing

/-!
# Files that are left in the middle of a call

A shared trie that grows goes on on the heap, and its file keeps the slots from that moment on. They can
always be loaded, but they have nodes for the first bytes of the key that was being stored. If these lead
to no key then all keys are not to be had from such a file.

* `Session.exists_torn`: what is in the file of a shared trie, whether it grew or not.
* `Session.reopen_torn`: what is loaded from it.
* `Session.exists_half_key`: a file with half of a key, in either encoding.
-/

namespace DoubleArrayTrie

namespace Session

variable {m : Mapping} {s : Session} {file : String} {number : Nat} {t u : Trie} {M : Entries}
  {tail : List UInt8}

/-- **What is in the file of a shared trie** after calls that each change one key: what it held before
the first of them that made the arrays grow, if there is one, and some bytes of the key of that
call. -/
theorem exists_torn (hu : u.Holds M) (hmapped : u.pool.backing = .mapped) {calls : List Call}
    (hcalls : ∀ call ∈ calls, call.Single) : ∃ n w,
      Torn u.config (M.run u.config.encoding (calls.take n)).1 w (u.run calls).1.pool.fileSlots ∧
      (((u.run calls).1.pool.capacity = u.pool.capacity ∧ n = calls.length ∧ w = []) ∨
        (u.GrowsAt calls n ∧ w ≠ [] ∧
          ∃ key value, calls[n]? = some (.insert key value) ∧ w <+: key)) := by
  rcases hu.leaves_run hmapped hcalls with ⟨hbacking, hcapacity⟩ |
    ⟨slots, blocks, hdetached, -, n, key, value, w, hgrows, hcall, hw0, hw, htorn⟩
  · obtain ⟨hholds, hconfig, -⟩ := hu.run calls
    have htorn := hholds.torn
    rw [hconfig] at htorn
    refine ⟨calls.length, [], ?_, .inl ⟨hcapacity, rfl, rfl⟩⟩
    rwa [List.take_length, Pool.fileSlots_of_mapped hbacking]
  · refine ⟨n, w, ?_, .inr ⟨hgrows, hw0, key, value, hcall, hw⟩⟩
    rwa [Pool.fileSlots_of_detached hdetached]

/-- Torn slots in the file of a shared trie are read back. -/
theorem Shares.load_torn (hs : s.Shares file t u tail) (ht : t.Encodable) {w : Key}
    (htorn : Torn t.config M w u.pool.fileSlots) (name : String) (mode : LoadMode) :
    ∃ s' r, s.load name t.config.encoding file mode = .ok s' ∧ s'.trie? = some r ∧
      r.config = t.config ∧ r.ReadsAs M w := by
  have hsize : u.pool.fileSlots.size ≤ 2147483648 := by
    rw [hs.lives.size_fileSlots]
    exact ht.capacity_le
  obtain ⟨s', r, hload, hr, hconfig, hslots, -⟩ :=
    hs.load ht (htorn.fits hsize) htorn.root name mode
  exact ⟨s', r, hload, hr, hconfig, htorn.reads hconfig hslots⟩

/-- **What is loaded from the file of a shared trie** after calls that each change one key, whether or
not it grew, where shared mappings write to their files as documented. It is read as what the shared
trie held after some of the calls, but for some bytes of the key that was being stored then. These may
lead to a leaf without a value, and then the keys are not listed, or the leaf is listed as a key. -/
theorem reopen_torn (hm : m.Documented) {o : Options} {e : Encoding} {t : Trie}
    (hcreate : Trie.create e o = .ok t) (hmax : o.maxTrial ≤ 2147483647) (before : List Call)
    (hcap : (t.run before).1.pool.capacity ≤ 2147483648)
    (hfile : s.files.lookup file = some ⟨number, (t.run before).1.image⟩) (name : String) :
    ∃ s₁ u₀, s.load name e file .shared = .ok s₁ ∧ s₁.trie? = some u₀ ∧
      u₀.Alike (t.run before).1 ∧ ∀ calls, (∀ call ∈ calls, call.Single) →
      (u₀.run calls).1.pool.capacity ≤ 2147483648 →
      ∃ s₂, s₁.run m calls = some (s₂, (u₀.run calls).2) ∧ ∃ n w,
        (u₀.run (calls.take n)).1.ReadsAs (Entries.run e ∅ (before ++ calls.take n)).1 [] ∧
        (∀ name' mode, ∃ s₃ r, s₂.load name' e file mode = .ok s₃ ∧ s₃.trie? = some r ∧
          r.config.encoding = e ∧ r.ReadsAs (Entries.run e ∅ (before ++ calls.take n)).1 w) ∧
        (((u₀.run calls).1.pool.capacity = u₀.pool.capacity ∧ n = calls.length ∧ w = []) ∨
          (u₀.GrowsAt calls n ∧ w ≠ [] ∧
            ∃ key value, calls[n]? = some (.insert key value) ∧ w <+: key)) := by
  obtain ⟨s₁, u₀, hload, htrie, halike, hmapped, hshares, hencodable, hencoding, hholds⟩ :=
    share_run hcreate hmax before hcap hfile name
  refine ⟨s₁, u₀, hload, htrie, halike, fun calls hcalls hcap => ?_⟩
  obtain ⟨s₂, hrun, hshares'⟩ := hshares.run hm calls hcap
  obtain ⟨n, w, htorn, hwhen⟩ := exists_torn hholds hmapped hcalls
  obtain ⟨hholds', -, -⟩ := hholds.run (calls.take n)
  rw [hencoding, ← Entries.run_append] at htorn hholds'
  refine ⟨s₂, hrun, n, w, hholds'.torn.reads rfl rfl, fun name' mode => ?_, hwhen⟩
  obtain ⟨s₃, r, hload', hr, hconfig, hreads⟩ := hshares'.load_torn hencodable htorn name' mode
  rw [hencoding] at hload'
  exact ⟨s₃, r, hload', hr, (congrArg Config.encoding hconfig).trans hencoding, hreads⟩

/-- A new trie is saved and loaded as shared, and gets a key of two bytes, for which it grows: the file
has some of it. -/
theorem reopen_torn_reduced : Mapping.direct.Documented ∧
    ∃ t, Trie.create .reduced {} = .ok t ∧ t.pool.capacity ≤ 2147483648 ∧
    ∃ s₁ u₀ s₂ s₃ r n w,
      (putFile {} "f" t.image).load "s" .reduced "f" .shared = .ok s₁ ∧
      s₁.trie? = some u₀ ∧
      (u₀.run [.insert [97, 98] 1]).1.pool.capacity ≤ 2147483648 ∧
      s₁.run .direct [.insert [97, 98] 1] = some (s₂, (u₀.run [.insert [97, 98] 1]).2) ∧
      s₂.load "r" .reduced "f" .copy = .ok s₃ ∧ s₃.trie? = some r ∧
      r.ReadsAs (Entries.run .reduced ∅ ([.insert [97, 98] 1].take n)).1 w := by
  obtain ⟨t, hcreate, hcapacity⟩ := Trie.exists_create .reduced
  refine ⟨Mapping.documented_direct, t, hcreate, by omega, ?_⟩
  obtain ⟨s₁, u₀, hload, hu₀, halike, hreopen⟩ :=
    reopen_torn Mapping.documented_direct hcreate (by decide) [] (hcapacity.trans_le (by decide))
      (lookup_putFile {} "f" t.image) "s"
  have hcap : (u₀.run [.insert [97, 98] 1]).1.pool.capacity ≤ 2147483648 := by
    rw [(halike.run _).1.2.capacity_eq]
    exact (Trie.capacity_run_of_create hcreate _).trans (by decide)
  obtain ⟨s₂, hrun, n, w, -, hfile, -⟩ := hreopen [.insert [97, 98] 1] (by simp [Call.Single]) hcap
  obtain ⟨s₃, r, hload', hr, -, hreads⟩ := hfile "r" .copy
  exact ⟨s₁, u₀, s₂, s₃, r, n, w, hload, hu₀, hcap, hrun, hload', hr, hreads⟩

/-- The first long key of a new trie is left half done. -/
theorem exists_torn_first (hu : u.Holds ∅) (hmapped : u.pool.backing = .mapped)
    (hcapacity : u.pool.capacity = 256) {x y : UInt8} {rest : Key} {value : Int32}
    (hrefusal : refusal u.config.encoding (x :: y :: rest) value = none) : ∃ w, [x] <+: w ∧
      Torn u.config ∅ w (u.run [.insert (x :: y :: rest) value]).1.pool.fileSlots := by
  have hsingle : ∀ call ∈ [Call.insert (x :: y :: rest) value], call.Single := by
    simp [Call.Single]
  obtain ⟨n, w, htorn, hwhen⟩ := exists_torn hu hmapped hsingle
  rcases hwhen with ⟨hsame, -⟩ | ⟨-, hw0, key, value', hcall, hw⟩
  · -- with the key the trie would not fit into one block
    obtain ⟨hfull, -, -⟩ := hu.run [.insert (x :: y :: rest) value]
    have hstored : x :: y :: rest ∈
        (Entries.run u.config.encoding ∅ [.insert (x :: y :: rest) value]).1 := by
      simp only [Entries.run, Entries.perform, hrefusal, Finmap.mem_insert, true_or]
    have hlt := hfull.blockSize_lt_capacity hstored (by simp)
    rw [hsame, hcapacity] at hlt
    exact absurd hlt (lt_irrefl 256)
  · obtain ⟨hn, -⟩ := List.getElem?_eq_some_iff.mp hcall
    obtain rfl : n = 0 := by simpa using hn
    obtain ⟨rfl, -⟩ := Call.insert.inj (Option.some.inj hcall)
    obtain ⟨z, w, rfl⟩ := List.exists_cons_of_ne_nil hw0
    obtain ⟨rfl, -⟩ := List.cons_prefix_cons.mp hw
    exact ⟨z :: w, List.cons_prefix_cons.mpr ⟨rfl, List.nil_prefix⟩, htorn⟩

/-- **The file may be left with half of a key**, in either encoding. The first byte of the key leads to
a node, as in no trie without the key, but the key is not found. All keys are not listed, or listed with
one too many, although the shared trie has none before the call. -/
theorem exists_half_key (e : Encoding) : ∃ t, Trie.create e {} = .ok t ∧ ∃ s₁ u₀ s₂ s₃ r w,
    (putFile {} "f" t.image).load "s" e "f" .shared = .ok s₁ ∧
    s₁.trie? = some u₀ ∧
    s₁.run .direct [.insert [97, 98] 1] = some (s₂, (u₀.run [.insert [97, 98] 1]).2) ∧
    s₂.load "r" e "f" .copy = .ok s₃ ∧ s₃.trie? = some r ∧
    (∀ n, ∃ key, r.find key ≠ (u₀.run ([.insert [97, 98] 1].take n)).1.find key) ∧
    r.config.encoding = e ∧ [97] <+: w ∧ r.ListsHalf ∅ w := by
  obtain ⟨t, hcreate, hcapacity⟩ := Trie.exists_create e
  obtain ⟨s₁, u₀, hload, hu₀, halike, hmapped, hshares, hencodable, hencoding, hholds⟩ :=
    share_run hcreate (by decide) [] (hcapacity.trans_le (by decide))
      (lookup_putFile {} "f" t.image) "s"
  have hcap : (u₀.run [.insert [97, 98] 1]).1.pool.capacity ≤ 2147483648 := by
    rw [(halike.run _).1.2.capacity_eq]
    exact (Trie.capacity_run_of_create hcreate _).trans (by decide)
  obtain ⟨s₂, hrun, hshares'⟩ :=
    hshares.run Mapping.documented_direct [.insert [97, 98] 1] hcap
  have hrefusal : refusal u₀.config.encoding [97, 98] 1 = none := by
    rw [hencoding]
    cases e <;> decide
  obtain ⟨w, hw, htorn⟩ := exists_torn_first hholds hmapped
    (halike.2.capacity_eq.trans hcapacity) hrefusal
  obtain ⟨s₃, r, hload', hr, hconfig, hreads⟩ := hshares'.load_torn hencodable htorn "r" .copy
  obtain ⟨hfull, -, -⟩ := hholds.run [.insert [97, 98] 1]
  rw [hencoding] at hload'
  have habsent : ∀ key, key ≠ [] → (∅ : Entries).answer key = .absent := fun _ =>
    Entries.answer_empty
  have hw0 : w ≠ [] := by
    rintro rfl
    simpa using hw.length_le
  refine ⟨t, hcreate, s₁, u₀, s₂, s₃, r, w, hload, hu₀, hrun, hload', hr, fun n => ?_,
    (congrArg Config.encoding hconfig).trans hencoding, hw,
    hreads.half hw0 fun key hkey => absurd hkey Finmap.notMem_empty⟩
  cases n with
  | zero =>
    have hfind : (u₀.run ([Call.insert [97, 98] 1].take 0)).1.find [97] = .absent :=
      (hholds.find [97]).trans (habsent [97] (by simp))
    refine ⟨[97], ?_⟩
    rw [hfind, hreads.find, if_pos ⟨habsent [97] (by simp), hw⟩]
    simp
  | succ n =>
    have hfind : (u₀.run ([Call.insert [97, 98] 1].take (n + 1))).1.find [97, 98] = .found 1 := by
      rw [List.take_succ_cons, List.take_nil, hfull.find]
      simp only [Entries.run, Entries.perform, hrefusal, Entries.answer, Finmap.lookup_insert]
    refine ⟨[97, 98], ?_⟩
    rw [hfind, hreads.find, habsent [97, 98] (by simp)]
    split_ifs <;> simp

end Session

end DoubleArrayTrie
