import DoubleArrayTrie.Proofs.Programs.Basic

/-!
# Loops of programs

A loop goes from round to round, and a round either says where the next one starts or ends the loop.
Nothing bounds the number of rounds: where a program gives its loop a number of rounds that is enough,
and does not fault, the rounds can be told one by one.

A program does not fault as a part of a run that does not fault, and so the loops that such a run
starts end in the number of rounds they are given.

* `Program.Rounds`: the rounds of a loop that ends.
* `Program.loop`, `Program.exists_rounds`: a loop that faults after a number of rounds.
* `Program.Starts`: the programs that are parts of a run.
-/

namespace DoubleArrayTrie

namespace Program

/-! ### Laws of programs -/

section

variable {α β γ : Type}

theorem bind_done (x : Program α) : x.bind done = x := by
  induction x with
  | access x next ih => exact congrArg (access x) (funext ih)
  | opening body next ih => exact congrArg (opening body) ih
  | done | fault => rfl

theorem bind_bind (x : Program α) (f : α → Program β) (g : β → Program γ) :
    (x.bind f).bind g = x.bind fun a => (f a).bind g := by
  induction x with
  | access x next ih => exact congrArg (access x) (funext ih)
  | opening body next ih => exact congrArg (opening body) ih
  | done | fault => rfl

instance : LawfulMonad Program :=
  LawfulMonad.mk' Program bind_done (fun _ _ => rfl) bind_bind

theorem ite_bind (P : Prop) [Decidable P] (x y : Program α) (f : α → Program β) :
    (if P then x else y) >>= f = if P then x >>= f else y >>= f :=
  apply_ite (· >>= f) P x y

end

/-! ### Runs taken apart -/

variable {σ α β : Type} {c : Config} {p q : Pool} {round : σ → Program (σ ⊕ α)} {s : σ}
  {l : List (Pool × σ)} {a : α} {n : Nat}

theorem run_bind_eq_some {x : Program α} {f : α → Program β} {y : Pool × β} :
    (x >>= f).run c p = some y ↔
      ∃ q a, x.run c p = some (q, a) ∧ (f a).run c q = some y := by
  rw [run_bind, Option.bind_eq_some_iff, Prod.exists]

theorem eq_of_run_pure {b : α} (h : (pure a : Program α).run c p = some (q, b)) : q = p ∧ b = a :=
  Prod.mk.inj (Option.some.inj h.symm)

theorem eq_of_run_size (h : size.run c p = some (q, n)) : q = p ∧ n = p.size :=
  Prod.mk.inj (Option.some.inj h.symm)

theorem of_run_require {P : Prop} [Decidable P] {u : Unit}
    (h : (require P).run c p = some (q, u)) : P ∧ q = p := by
  unfold require at h
  split_ifs at h with hP
  · exact ⟨hP, (eq_of_run_pure h).1⟩
  · simp [run] at h

theorem run_slot_eq_some {i : Nat} {s : Slot} :
    (slot i).run c p = some (q, s) ↔ i < p.size ∧ q = p ∧ s = p.slot i := by
  unfold slot run
  split_ifs with h
  · have hi : i < p.size := h
    show some (p, p.slot i) = some (q, s) ↔ _
    simp [hi, eq_comm]
  · exact iff_of_false (by simp) fun hi => h hi.1

theorem run_slot_bind_eq_some {i : Nat} {f : Slot → Program β} {y : Pool × β} :
    (slot i >>= f).run c p = some y ↔ i < p.size ∧ (f (p.slot i)).run c p = some y := by
  rw [run_bind_eq_some]
  constructor
  · rintro ⟨q, s, hs, hy⟩
    obtain ⟨hi, rfl, rfl⟩ := run_slot_eq_some.mp hs
    exact ⟨hi, hy⟩
  · rintro ⟨hi, hy⟩
    exact ⟨p, _, run_slot_eq_some.mpr ⟨hi, rfl, rfl⟩, hy⟩

theorem run_writeSlot_eq_some {i : Nat} {w : SlotWrite} {u : Unit} :
    (writeSlot i w).run c p = some (q, u) ↔
      (i < p.size ∧ w.Fits c.encoding) ∧ q = p.modifySlot i w.apply := by
  unfold writeSlot run
  split_ifs with h
  · have hi : i < p.size ∧ w.Fits c.encoding := h
    show some (p.modifySlot i w.apply, ()) = some (q, u) ↔ _
    simp [hi, eq_comm]
  · exact iff_of_false (by simp) fun hi => h hi.1

/-! ### Rounds -/

/-- The rounds of a loop from a state on, each with the pool and the state where it starts. The last
one leaves pool `q` and ends with a result. -/
inductive Rounds (c : Config) (round : σ → Program (σ ⊕ α)) :
    Pool → σ → List (Pool × σ) → Pool → α → Prop
  | last {p q : Pool} {s : σ} {a : α} (h : (round s).run c p = some (q, .inr a)) :
      Rounds c round p s [(p, s)] q a
  | next {p p' q : Pool} {s s' : σ} {l : List (Pool × σ)} {a : α}
      (h : (round s).run c p = some (p', .inl s')) (hs : Rounds c round p' s' l q a) :
      Rounds c round p s ((p, s) :: l) q a

theorem Rounds.length_pos (h : Rounds c round p s l q a) : 0 < l.length := by
  cases h <;> exact Nat.succ_pos _

/-- A loop that faults unless it ends within so many rounds. -/
def loop (round : σ → Program (σ ⊕ α)) : Nat → σ → Program α
  | 0, _ => fault
  | n + 1, s => round s >>= Sum.elim (loop round n) pure

/-- What goes from round to round like a loop is that loop. -/
theorem eq_loop {f : Nat → σ → Program α} (hzero : ∀ s, f 0 s = fault)
    (hsucc : ∀ n s, f (n + 1) s = round s >>= Sum.elim (f n) pure) (n : Nat) (s : σ) :
    f n s = loop round n s := by
  induction n generalizing s with
  | zero => exact hzero s
  | succ n ih =>
    rw [hsucc, funext ih]
    rfl

/-- **A loop that does not fault** ends within the number of rounds that it is given. -/
theorem exists_rounds (h : (loop round n s).run c p = some (q, a)) :
    ∃ l, Rounds c round p s l q a ∧ l.length ≤ n := by
  induction n generalizing p s with
  | zero => simp [loop, run] at h
  | succ n ih =>
    obtain ⟨p', next, hround, hrest⟩ := run_bind_eq_some.mp h
    cases next with
    | inl s' =>
      obtain ⟨l, hl, hlen⟩ := ih hrest
      exact ⟨_, .next hround hl, Nat.succ_le_succ hlen⟩
    | inr b =>
      obtain ⟨rfl, rfl⟩ := eq_of_run_pure hrest
      exact ⟨_, .last hround, Nat.succ_le_succ (Nat.zero_le n)⟩

/-- A loop that ends gives its result with any number of rounds that is enough. -/
theorem Rounds.run_loop (h : Rounds c round p s l q a) (hn : l.length ≤ n) :
    (loop round n s).run c p = some (q, a) := by
  induction h generalizing n with
  | last hround =>
    obtain ⟨n, rfl⟩ := Nat.exists_eq_add_one.mpr hn
    unfold loop
    rw [run_bind_of hround]
    rfl
  | next hround _ ih =>
    obtain ⟨n, rfl⟩ := Nat.exists_eq_add_one.mpr (Nat.zero_lt_of_lt hn)
    unfold loop
    rw [run_bind_of hround]
    exact ih (Nat.le_of_succ_le_succ hn)

/-! ### Parts of a run -/

/-- The run of a program on pool `p` starts program `y` on pool `q`. -/
inductive Starts (c : Config) (y : Program β) (q : Pool) : {α : Type} → Program α → Pool → Prop
  | self : Starts c y q y q
  | first {α γ : Type} {p : Pool} {x : Program α} {f : α → Program γ} (h : Starts c y q x p) :
      Starts c y q (x >>= f) p
  | rest {α γ : Type} {p p' : Pool} {x : Program α} {f : α → Program γ} {a : α}
      (hx : x.run c p = some (p', a)) (h : Starts c y q (f a) p') : Starts c y q (x >>= f) p

/-- **No part of a run faults** if the run does not. -/
theorem Starts.isSome {x : Program α} {y : Program β} (h : Starts c y q x p)
    (hx : (x.run c p).isSome) : (y.run c q).isSome := by
  induction h with
  | self => exact hx
  | first _ ih =>
    rw [run_bind] at hx
    exact ih (Option.isSome_of_isSome_bind hx)
  | rest hrun _ ih =>
    rw [run_bind_of hrun] at hx
    exact ih hx

end Program

end DoubleArrayTrie
