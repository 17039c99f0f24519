import Mathlib.Data.List.Infix
import DoubleArrayTrie.Trie.Query
import DoubleArrayTrie.Proofs.Trie.Reading

/-!
# The keys of an outline in order

An outline lists its keys without any slots: the key of a node comes before those below the node, and
these come by the label after it, in the order of the chain.

* `Outline.listing`: the nodes at or below a node whose keys have a value.
* `Outline.mem_listing_iff`, `Outline.nodup_listing`: all of them, each one once.
* `Outline.pairwise_listing`: in which order their keys come (`Precedes`).
* `Precedes.lt`: in an ordered trie they ascend.
* `Lays.length_le_size`: so there are no more than slots in use.
-/

namespace DoubleArrayTrie

/-- One key comes before another, where `S` says in which order the bytes come that follow the same
bytes: it is a beginning of the other, or where the two part its byte comes first. -/
def Precedes (S : Key → UInt8 → UInt8 → Prop) (k m : Key) : Prop :=
  (k <+: m ∧ k ≠ m) ∨ ∃ w x y, S w x y ∧ w ++ [x] <+: k ∧ w ++ [y] <+: m

theorem Precedes.imp {S S' : Key → UInt8 → UInt8 → Prop} (hS : ∀ w x y, S w x y → S' w x y) {k m : Key}
    (h : Precedes S k m) : Precedes S' k m := by
  refine h.imp_right ?_
  rintro ⟨w, x, y, hxy, hk, hm⟩
  exact ⟨w, x, y, hS w x y hxy, hk, hm⟩

/-- Where bytes come in their own order, so do byte strings. -/
theorem Precedes.lt {k m : Key} (h : Precedes (fun _ x y => x < y) k m) : k < m := by
  rcases h with ⟨⟨r, rfl⟩, hne⟩ | ⟨w, x, y, hxy, ⟨r, rfl⟩, ⟨s, rfl⟩⟩
  · obtain ⟨l, r, rfl⟩ := List.exists_cons_of_ne_nil (l := r) fun hr =>
      hne (by rw [hr, List.append_nil])
    have hlt : k ++ [] < k ++ l :: r := List.append_left_lt (List.nil_lt_cons l r)
    rwa [List.append_nil] at hlt
  · rw [List.append_assoc, List.append_assoc]
    exact List.append_left_lt (List.cons_lt_cons_iff.mpr (.inl hxy))

namespace Outline

variable {c : Config} {T : Outline} {M : Trail → Option Int32} {t u q : Trail} {l : UInt8} {n : Nat}

/-- The nodes at or below a node whose keys have a value, no more than so many labels below. -/
def listing (c : Config) (T : Outline) : Nat → Trail → List Trail
  | 0, _ => []
  | n + 1, t =>
      (if (T.value? c t).isSome then [t] else []) ++
        ((T.kids t).filter (· ≠ 0)).flatMap fun l => listing c T n (l :: t)

/-- A child that is no terminal. -/
theorem mem_child (ht : T.Mem t) (h0 : 0 ∉ t) (hl : l ∈ (T.kids t).filter (· ≠ 0)) :
    T.Mem (l :: t) ∧ 0 ∉ l :: t := by
  obtain ⟨hkid, hl0⟩ := List.mem_filter.mp hl
  rw [List.mem_cons, not_or]
  exact ⟨⟨ht, hkid⟩, Ne.symm (by simpa using hl0), h0⟩

/-- Nodes that are listed have a value and no terminal on their way. -/
theorem of_mem_listing (ht : T.Mem t) (h0 : 0 ∉ t) (h : u ∈ T.listing c n t) :
    t <:+ u ∧ T.Mem u ∧ 0 ∉ u ∧ (T.value? c u).isSome := by
  induction n generalizing t with
  | zero => simp [listing] at h
  | succ n ih =>
    rw [listing, List.mem_append] at h
    rcases h with h | h
    · split_ifs at h with hvalue
      · obtain rfl := List.mem_singleton.mp h
        exact ⟨List.suffix_rfl, ht, h0, hvalue⟩
      · simp at h
    · obtain ⟨l, hl, hu⟩ := List.mem_flatMap.mp h
      obtain ⟨hmem, hl0⟩ := mem_child ht h0 hl
      exact (ih hmem hl0 hu).imp_left (List.suffix_cons l t).trans

/-- **The nodes at or below a node that have a value** are listed, if the number is large enough. -/
theorem mem_listing_iff (ht : T.Mem t) (h0 : 0 ∉ t) (hn : u.length < t.length + n) :
    u ∈ T.listing c n t ↔ t <:+ u ∧ T.Mem u ∧ 0 ∉ u ∧ (T.value? c u).isSome := by
  refine ⟨of_mem_listing ht h0, ?_⟩
  rintro ⟨htu, hu, hu0, hvalue⟩
  clear ht h0
  induction n generalizing t with
  | zero =>
    have := htu.length_le
    omega
  | succ n ih =>
    rw [listing, List.mem_append]
    by_cases hut : u = t
    · rw [← hut, if_pos hvalue]
      exact .inl List.mem_cons_self
    · -- the way down to the node goes through a child
      obtain ⟨l, hsuffix⟩ : ∃ l, l :: t <:+ u := by
        obtain ⟨r, rfl⟩ := htu
        obtain ⟨r, l, rfl⟩ := (List.eq_nil_or_concat r).resolve_left fun hr => hut (by rw [hr]; rfl)
        exact ⟨l, r, by simp⟩
      have hkid := (mem_of_suffix hu hsuffix).2
      have hl : l ≠ 0 := fun hl => hu0 (hsuffix.subset (by rw [hl]; exact List.mem_cons_self))
      refine .inr (List.mem_flatMap.mpr ⟨l, List.mem_filter.mpr ⟨hkid, by simpa using hl⟩, ?_⟩)
      exact ih (by rw [List.length_cons]; omega) hsuffix

/-- **No node is listed twice.** -/
theorem nodup_listing (hT : T.Sound c) (ht : T.Mem t) (h0 : 0 ∉ t) (n : Nat) :
    (T.listing c n t).Nodup := by
  induction n generalizing t with
  | zero => exact List.nodup_nil
  | succ n ih =>
    have hbelow : ∀ l ∈ (T.kids t).filter (· ≠ 0), ∀ u ∈ T.listing c n (l :: t), l :: t <:+ u := by
      intro l hl u hu
      obtain ⟨hmem, hl0⟩ := mem_child ht h0 hl
      exact (of_mem_listing hmem hl0 hu).1
    rw [listing, List.nodup_append]
    refine ⟨?_, ?_, ?_⟩
    · split_ifs
      · exact List.nodup_singleton t
      · exact List.nodup_nil
    · rw [List.nodup_flatMap]
      refine ⟨fun l hl => ih (mem_child ht h0 hl).1 (mem_child ht h0 hl).2, ?_⟩
      refine ((hT.labels t).nodup.filter _).imp_of_mem fun {l m} hl hm hne u hul hum => hne ?_
      have hsuffix := List.suffix_of_suffix_length_le (hbelow l hl u hul) (hbelow m hm u hum) le_rfl
      exact (List.cons.inj (hsuffix.eq_of_length rfl)).1
    · intro u hu v hv huv
      subst huv
      split_ifs at hu
      · obtain rfl := List.mem_singleton.mp hu
        obtain ⟨l, hl, hu'⟩ := List.mem_flatMap.mp hv
        have hle := (hbelow l hl _ hu').length_le
        simp at hle
      · simp at hu

/-- **The order of the keys**: each comes before its extensions, and these in the order of the labels
after it. -/
theorem pairwise_listing {S : Key → UInt8 → UInt8 → Prop} (ht : T.Mem t) (h0 : 0 ∉ t)
    (hS : ∀ q, T.Mem q → 0 ∉ q → ((T.kids q).filter (· ≠ 0)).Pairwise (S q.reverse)) (n : Nat) :
    (T.listing c n t).Pairwise fun u v => Precedes S u.reverse v.reverse := by
  induction n generalizing t with
  | zero => exact List.Pairwise.nil
  | succ n ih =>
    -- the key of a node begins with that of the node above it
    have hbelow : ∀ l ∈ (T.kids t).filter (· ≠ 0), ∀ u ∈ T.listing c n (l :: t),
        t.reverse ++ [l] <+: u.reverse := by
      intro l hl u hu
      obtain ⟨hmem, hl0⟩ := mem_child ht h0 hl
      rw [← List.reverse_cons]
      exact List.reverse_prefix.mpr (of_mem_listing hmem hl0 hu).1
    rw [listing, List.pairwise_append]
    refine ⟨?_, ?_, ?_⟩
    · split_ifs
      · exact List.pairwise_singleton _ t
      · exact List.Pairwise.nil
    · rw [List.pairwise_flatMap]
      refine ⟨fun l hl => ih (mem_child ht h0 hl).1 (mem_child ht h0 hl).2, ?_⟩
      refine (hS t ht h0).imp_of_mem fun {l m} hl hm hlm u hu v hv => ?_
      exact .inr ⟨t.reverse, l, m, hlm, hbelow l hl u hu, hbelow m hm v hv⟩
    · intro u hu v hv
      split_ifs at hu
      · obtain rfl := List.mem_singleton.mp hu
        obtain ⟨l, hl, hv'⟩ := List.mem_flatMap.mp hv
        have hprefix := hbelow l hl v hv'
        refine .inl ⟨(List.prefix_append _ _).trans hprefix, fun heq => ?_⟩
        have hle := hprefix.length_le
        rw [← heq, List.length_append, List.length_singleton] at hle
        omega
      · simp at hu

end Outline

namespace Pool.Lays

variable {c : Config} {p : Pool} {T : Outline} {off : Trail → Nat} {t : Trail}

/-- There are no more nodes than slots in use. -/
theorem length_le_size (h : p.Lays c T off) {ts : List Trail} (hnd : ts.Nodup)
    (hmem : ∀ t ∈ ts, T.Mem t) : ts.length ≤ p.size := by
  have hslots : (ts.map (locate off)).Nodup :=
    List.Nodup.map_on (fun t ht u hu => h.locate_inj (hmem t ht) (hmem u hu)) hnd
  have hlt : ts.map (locate off) ⊆ List.range p.size := by
    intro e he
    obtain ⟨t, ht, rfl⟩ := List.mem_map.mp he
    exact List.mem_range.mpr (h.draws.lt_size (hmem t ht))
  have hle := (List.subperm_of_subset hslots hlt).length_le
  rwa [List.length_map, List.length_range] at hle

/-- So no way is longer. -/
theorem length_lt_size (h : p.Lays c T off) (ht : T.Mem t) : t.length < p.size := by
  have hnodup : t.tails.Nodup := by
    clear h ht
    induction t with
    | nil => exact List.nodup_singleton _
    | cons l t ih =>
      refine List.nodup_cons.mpr ⟨fun hmem => ?_, ih⟩
      have hle := ((List.mem_tails _ _).mp hmem).length_le
      simp at hle
  have hle := h.length_le_size hnodup fun u hu =>
    Outline.mem_of_suffix ht ((List.mem_tails _ _).mp hu)
  rwa [List.length_tails] at hle

end Pool.Lays

end DoubleArrayTrie
