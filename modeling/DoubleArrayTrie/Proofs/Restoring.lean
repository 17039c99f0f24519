import DoubleArrayTrie.Proofs.Agreement
import DoubleArrayTrie.Proofs.Image.Encodable

/-!
# Tries are restored from their images

Whatever calls a new trie got, it fits into its image as long as its capacity does, so that the image
is read back as a copy of the trie. A copy cannot be told from the trie.

* `Trie.encodable_run`: a trie fits into its image after any calls.
* `Trie.restored_run`: its image, with anything behind, is read as a copy that agrees with it.
-/

namespace DoubleArrayTrie

namespace Trie

/-- The bound that is never used, that for no free slots, stays as it is in a new trie or falls to
zero. -/
theorem reject_zero_run (c : Config) (calls : List Call) :
    0 ≤ ((empty c).run calls).1.pool.reject 0 ∧ ((empty c).run calls).1.pool.reject 0 ≤ 1 := by
  have hnew : (empty c).pool.reject 0 = 1 := by
    unfold empty
    rw [Pool.reject_empty]
    rfl
  have hle := reject_run_le (k := 0) (t := empty c) (by rw [hnew]; decide) calls
  rw [hnew] at hle
  exact hle

/-- **After any calls on a new trie it fits into its image**, as long as its capacity does. -/
theorem encodable_run {o : Options} {e : Encoding} {t : Trie} (hcreate : create e o = .ok t)
    (hmax : o.maxTrial ≤ 2147483647) (calls : List Call)
    (hcap : (t.run calls).1.pool.capacity ≤ 2147483648) : (t.run calls).1.Encodable := by
  obtain ⟨ho, rfl⟩ := validate_of_create hcreate
  obtain ⟨hholds, hconfig, -⟩ := run_holds ho e calls
  exact hholds.encodable (reject_zero_run _ calls) hcap (by rw [hconfig]; exact hmax)

theorem config_run {o : Options} {e : Encoding} {t : Trie} (hcreate : create e o = .ok t)
    (calls : List Call) : (t.run calls).1.config = { o with encoding := e } := by
  obtain ⟨ho, rfl⟩ := validate_of_create hcreate
  exact (run_holds ho e calls).2.1

/-- **The image of a trie, with anything behind, is read as a copy of the trie**: the configuration,
the records, the heads and the size are the same. Whatever calls the two get from then on, they
return the same, answer questions in the same way and have the same image. -/
theorem restored_run {o : Options} {e : Encoding} {t : Trie} (hcreate : create e o = .ok t)
    (hmax : o.maxTrial ≤ 2147483647) (calls : List Call)
    (hcap : (t.run calls).1.pool.capacity ≤ 2147483648) (rest : List UInt8) :
    ofImage? e .copy ((t.run calls).1.image ++ rest) = .ok (t.run calls).1.copy ∧
      (t.run calls).1.copy.Agree (t.run calls).1 := by
  have hread := ofImage?_image (encodable_run hcreate hmax calls hcap) .copy rest
  rw [config_run hcreate calls] at hread
  refine ⟨?_, (copy_alike _).agree⟩
  rw [hread]
  rw [← config_run hcreate calls]
  rfl

/-- A reduced trie with one key, whose image is followed by a byte. -/
theorem restored_run_reduced : ∃ t, create .reduced {} = .ok t ∧
    (t.run [.insert [97] 1]).1.pool.capacity ≤ 2147483648 ∧
    ofImage? .reduced .copy ((t.run [.insert [97] 1]).1.image ++ [0]) =
      .ok (t.run [.insert [97] 1]).1.copy ∧
    (t.run [.insert [97] 1]).1.copy.Agree (t.run [.insert [97] 1]).1 := by
  have hcreate : create .reduced {} = .ok (empty { ({} : Options) with encoding := .reduced }) :=
    (create_eq rfl .reduced).1
  have hcap : ((empty { ({} : Options) with encoding := .reduced }).run
      [.insert [97] 1]).1.pool.capacity ≤ 2147483648 :=
    (capacity_run_singleton rfl 97 1).trans_le (by decide)
  exact ⟨_, hcreate, hcap, restored_run hcreate (by decide) _ hcap [0]⟩

end Trie

end DoubleArrayTrie
