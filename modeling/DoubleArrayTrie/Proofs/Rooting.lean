import DoubleArrayTrie.Proofs.Loading
import DoubleArrayTrie.Proofs.Placement
import DoubleArrayTrie.Proofs.Restoring

/-!
# The root and its block

The root never moves: it is in slot `0`, its children are at offset `0`, and so block `0` holds
nothing but the root and its children, each in the slot of its own label. No search offers a slot of
block `0`, so all other nodes have their children elsewhere; the slot that such a node asks for can be
in the way of no child of the root, and the root never loses a conflict. The word of the root tells an
image of one encoding from an image of the other.

* `Pool.Rooted`: how the root and its block look.
* `Pool.Lays.contested`: the two nodes that want a slot are not the root.
* `Trie.rooted_run`: both are so in all pools that come up in a trie, and its image is told from those
  of the other encoding.
-/

namespace DoubleArrayTrie

namespace Pool

/-- The root is where it belongs, and nothing but its children is in its block. -/
structure Rooted (c : Config) (p : Pool) : Prop where
  /-- The children of the root are at offset `0`, and it names no parent and no first child. -/
  root : (p.slot 0).base = c.encoding.rootBase ∧ (p.slot 0).check = -1 ∧ (p.slot 0).child = 0
  /-- Every other slot of block `0` is free, or that of the child of the root with its number as the
  label. -/
  block : ∀ i, 1 ≤ i → i < blockSize →
    p.Free i ∨ p.Reaches c i [UInt8.ofNat i] ∧ (p.slot i).check = 0
  /-- The children of all other nodes are outside of block `0`. -/
  outside : ∀ n q k, p.Reaches c n q → q ≠ [] → q.head? ≠ some 0 →
    c.encoding.offset? (p.slot n).base = some k → blockSize ≤ k
  /-- A key of one byte leads to the slot with the number of the byte. -/
  single : ∀ x n, p.walk c 0 [x] = some n → n = x.toNat

variable {c : Config} {p : Pool} {T : Outline} {off : Trail → Nat} {q : Trail} {x : UInt8} {k i : Nat}

namespace Lays

/-- A slot in use in block `0` belongs to the root or to one of its children. -/
theorem mem_of_lt_blockSize (h : p.Lays c T off) (hpos : 1 ≤ i) (hi : i < blockSize)
    (hcheck : 0 ≤ (p.slot i).check) : ∃ l, T.Mem [l] ∧ i = l.toNat := by
  obtain ⟨v, hv, hloc, -⟩ := h.draws.exists_of_check (hi.trans_le h.draws.kept.size_pos) hcheck
  rcases v with _ | ⟨l, u⟩
  · have hzero : (0 : Nat) = i := hloc
    omega
  · have hu : u = [] := by
      by_contra hu
      have hdeep := (h.blockSize_le_locate hv).mpr hu
      omega
    subst hu
    refine ⟨l, hv, ?_⟩
    rw [← hloc, locate_cons, h.root, Nat.zero_xor]

theorem rooted (h : p.Lays c T off) : p.Rooted c where
  root := by
    rw [h.slot_root, h.root]
    exact ⟨(Encoding.rootBase_eq _).symm, rfl, rfl⟩
  block i hpos hi := by
    have hlt := hi.trans_le h.draws.kept.size_pos
    by_cases hcheck : 0 ≤ (p.slot i).check
    · obtain ⟨l, hl, rfl⟩ := h.mem_of_lt_blockSize hpos hi hcheck
      have hloc : locate off [l] = l.toNat := by rw [locate_cons, h.root, Nat.zero_xor]
      have hparent := h.check_cons hl
      rw [hloc] at hparent
      rw [UInt8.ofNat_toNat]
      exact .inr ⟨h.reaches_iff.mpr ⟨hl, hloc⟩, hparent⟩
    · exact .inl ⟨hpos, hlt, not_le.mp hcheck⟩
  outside n q k hn hq hterm hk := by
    obtain ⟨hmem, rfl⟩ := h.reaches_iff.mp hn
    rw [h.offset?_base hmem (fun r hr => hterm (by rw [hr]; rfl))] at hk
    split_ifs at hk with hkids
    obtain rfl := Option.some.inj hk
    exact h.deep q hq (hkids.resolve_left hq)
  single x n hwalk := by
    obtain ⟨-, -, rfl⟩ := h.walk_root.mp hwalk
    show off [] ^^^ x.toNat = x.toNat
    rw [h.root, Nat.zero_xor]

/-- **A conflict is never about the children of the root**: neither the node that asks for a slot in
use nor the one whose child is in it is the root. -/
theorem contested (h : p.Lays c T off) (hq : T.Mem q) (h0 : 0 ∉ q)
    (hoffset : c.encoding.offset? (p.slot (locate off q)).base = some k)
    (htaken : 0 ≤ (p.slot (k ^^^ x.toNat)).check)
    (hother : (p.slot (k ^^^ x.toNat)).check ≠ locate off q) :
    locate off q ≠ 0 ∧ (p.slot (k ^^^ x.toNat)).check ≠ 0 := by
  rw [h.offset?_base hq (Outline.ne_terminal h0)] at hoffset
  split_ifs at hoffset with hk
  obtain rfl := Option.some.inj hoffset
  have hx : x ∉ T.kids q := mt (h.check_eq_iff hq hk x).mpr hother
  have hq0 : q ≠ [] := by
    rintro rfl
    exact hx (h.mem_kids_root htaken)
  obtain ⟨u, y, hcontest, howner⟩ := h.contest hq hq0 (hk.resolve_left hq0) hx htaken
  refine ⟨fun hzero => hq0 (h.locate_eq_zero hq hzero), fun hzero => ?_⟩
  rw [howner] at hzero
  exact hcontest.owner_ne (h.locate_eq_zero hcontest.owner (Int.natCast_eq_zero.mp hzero))

end Lays

end Pool

/-! ### The pools that come up in a trie -/

namespace Trie

variable {o : Options} {e : Encoding} {t : Trie} {p : Pool} {M : Entries} {key : Key} {value : Int32}
  {n k : Nat} {x : UInt8}

/-- The pools that come up in a trie lay out an outline. -/
theorem ComesTo.lays (hcreate : Trie.create e o = .ok t) (h : t.ComesTo p) :
    ∃ T off, p.Lays t.config T off := by
  obtain ⟨ho, rfl⟩ := validate_of_create hcreate
  cases h with
  | rest calls =>
    obtain ⟨⟨T, off, hlays, -⟩, hconfig, -⟩ := run_holds ho e calls
    rw [hconfig] at hlays
    exact ⟨T, off, hlays⟩
  | @asking calls key value _ n x hrefusal hasks =>
    obtain ⟨⟨T, off, hlays, hM⟩, hconfig, -⟩ := run_holds ho e calls
    rw [hconfig] at hlays hM
    obtain ⟨hkey, h0, -⟩ := refusal_eq_none hrefusal
    obtain ⟨T', off', -, hlays', -⟩ := hasks.lays hlays hM trivial (by simp) h0 rfl (.inr hkey)
    exact ⟨T', off', hlays'⟩

/-- While a value is stored the root takes no part in conflicts. -/
theorem Holds.contested (h : t.Holds M) (hrefusal : refusal t.config.encoding key value = none)
    (hasks : Pool.Asks t.config t.pool 0 key p n x)
    (hoffset : t.config.encoding.offset? (p.slot n).base = some k)
    (htaken : 0 ≤ (p.slot (k ^^^ x.toNat)).check) (hother : (p.slot (k ^^^ x.toNat)).check ≠ n) :
    n ≠ 0 ∧ (p.slot (k ^^^ x.toNat)).check ≠ 0 := by
  obtain ⟨T₀, off₀, hlays₀, hM₀⟩ := h
  obtain ⟨hkey, h0key, -⟩ := refusal_eq_none hrefusal
  obtain ⟨T, off, q, hlays, -, hq, h0, rfl, -⟩ :=
    hasks.lays hlays₀ hM₀ trivial (by simp) h0key rfl (.inr hkey)
  exact hlays.contested hq h0 hoffset htaken hother

/-- An image is told from those of the other encoding, whatever comes behind it. -/
theorem Encodable.mismatch (h : t.Encodable) {e' : Encoding} (he : e' ≠ t.config.encoding)
    (mode : LoadMode) (rest : List UInt8) : ofImage? e' mode (t.image ++ rest) =
      .error (.encodingMismatch e' t.config.encoding) := by
  have hvalid := (ofImage?_eq_ok_iff.mp (ofImage?_image h .copy rest)).1
  exact ofImage?_eq_mismatch_iff.mpr ⟨rfl, he.symm, hvalid⟩

/-- **The root and its block** in all pools that come up in a trie, after any calls and while one more
value is stored: the root is in slot `0` and nothing but its children is in its block, each in the slot
of its label; the children of all other nodes are elsewhere, and the root has no part in any conflict.
An image is therefore refused under the other encoding, with the names of both. -/
theorem rooted_run (hcreate : Trie.create e o = .ok t) :
    (∀ p, t.ComesTo p → p.Rooted t.config) ∧
    (∀ calls key value p n x k, refusal e key value = none →
      Pool.Asks t.config (t.run calls).1.pool 0 key p n x → e.offset? (p.slot n).base = some k →
      0 ≤ (p.slot (k ^^^ x.toNat)).check → (p.slot (k ^^^ x.toNat)).check ≠ n →
        n ≠ 0 ∧ (p.slot (k ^^^ x.toNat)).check ≠ 0) ∧
    ∀ calls e' rest, e' ≠ e → o.maxTrial ≤ 2147483647 →
      (t.run calls).1.pool.capacity ≤ 2147483648 → ∃ err : Error,
        err.message = "image holds a " ++ e.name ++ " trie, expected " ++ e'.name ∧
        (∀ mode, ofImage? e' mode ((t.run calls).1.image ++ rest) = .error err) ∧
        ∀ (s : Session) (name file : String) (number : Nat) (mode : LoadMode),
          s.files.lookup file = some ⟨number, (t.run calls).1.image ++ rest⟩ →
            s.load name e' file mode = .error (.refused err) := by
  refine ⟨fun p hp => ?_, fun calls key value p n x k hrefusal hasks hoffset htaken hother => ?_,
    fun calls e' rest he hmax hcap => ?_⟩
  · obtain ⟨T, off, hlays⟩ := hp.lays hcreate
    exact hlays.rooted
  · obtain ⟨ho, rfl⟩ := validate_of_create hcreate
    obtain ⟨hholds, hconfig, -⟩ := run_holds ho e calls
    have hcontested := @Holds.contested _ p _ key value n k x hholds
    rw [hconfig] at hcontested
    exact hcontested hrefusal hasks hoffset htaken hother
  · have hread := fun mode => (encodable_run hcreate hmax calls hcap).mismatch
      (by rwa [config_run hcreate calls]) mode rest
    rw [config_run hcreate calls] at hread
    exact ⟨_, rfl, hread, fun s name file number mode hfile =>
      Session.load_refused hfile (hread mode) name⟩

/-- A node asks for its own slot, the only child of a child of the root, and the image of a new trie is
read in the wrong encoding, with a byte behind it. -/
theorem rooted_run_standard : ∃ t, Trie.create .standard {} = .ok t ∧
    let p := (t.run [.insert [97, 97] 1]).1.pool
    p.Rooted t.config ∧ Pool.Asks t.config p 0 [97, 97, 1] p 256 1 ∧
      ((256 : Nat) ≠ 0 ∧ (p.slot (257 ^^^ (1 : UInt8).toNat)).check ≠ 0) ∧
      ∃ err : Error, err.message = "image holds a " ++ "standard" ++ " trie, expected " ++ "reduced" ∧
        ∀ mode, ofImage? .reduced mode ((t.run []).1.image ++ [0]) = .error err := by
  have hcreate := (create_eq (o := {}) rfl .standard).1
  refine ⟨_, hcreate, ?_⟩
  intro p
  obtain ⟨hasks, hoffset, hcheck⟩ := asks_own_slot
  have hrefusal : refusal .standard [97, 97, 1] 1 = none := by decide
  have htaken : (p.slot (257 ^^^ (1 : UInt8).toNat)).check = 97 := hcheck
  obtain ⟨hrooted, hcontested, himage⟩ := rooted_run hcreate
  have hcap : ((Trie.empty { encoding := .standard }).run []).1.pool.capacity ≤ 2147483648 := by
    simp only [run, Trie.empty, Pool.capacity_empty]
    decide
  obtain ⟨err, hmessage, hread, -⟩ := himage [] .reduced [0] (by decide) (by decide) hcap
  exact ⟨hrooted p (.rest _), hasks,
    hcontested [.insert [97, 97] 1] _ 1 p 256 1 257 hrefusal hasks hoffset (by omega) (by omega), err,
    hmessage, hread⟩

end Trie

end DoubleArrayTrie
