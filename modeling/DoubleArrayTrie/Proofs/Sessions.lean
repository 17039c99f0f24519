import DoubleArrayTrie.Proofs.Heads
import DoubleArrayTrie.Proofs.Loading
import DoubleArrayTrie.Proofs.Programs.Mapped
import DoubleArrayTrie.Proofs.Safety

/-!
# Calls in a session

A call on the current trie of a session is a program over its pool. Each of its stores goes through the
mapping of the trie to the file, if there is one, in this order. To bring the file up to date once after
the call, as `Session.change` does, comes to the same.

* `Session.perform`, `Session.run`: calls write by write.
* `Trie.SameState`: what calls do does not depend on what is in the journal.
* `Trie.Fit`: no call faults on a trie, as long as it does not grow too large.
* `Session.perform_resident`, `Session.change_resident`: a call in both ways.
* `Session.Has.run_fault`: calls that need too many slots fault.
* `Session.run_of_perform`: what a call keeps of a session, calls keep.
-/

namespace DoubleArrayTrie

/-! ### Calls write by write -/

namespace Session

/-- A call on the current trie, if it does not fault. Its events go to the journal, and its stores to
the file that it is mapped from. -/
def perform (m : Mapping) (s : Session) (call : Call) : Option (Session × Answer) :=
  match s.current with
  | none => none
  | some name =>
      match s.tries.lookup name with
      | none => none
      | some r =>
          let c := r.trie.config
          let x := Program.perform c.rules call
          match x.run c r.trie.pool with
          | none => none
          | some (p, answer) =>
              let t : Trie := ⟨c, { p with journal := #[] }⟩
              let s :=
                { s with
                  tries := Named.assign s.tries name { r with trie := t }
                  journal := s.journal ++ p.journal }
              match r.view? with
              | none => some (s, answer)
              | some v =>
                  some (s.modifyFile v.number ((x.stores c r.trie.pool).foldl (v.put m)), answer)

/-- The session after some calls on its current trie, and what they return. -/
def run (m : Mapping) (s : Session) : List Call → Option (Session × List Answer)
  | [] => some (s, [])
  | call :: calls =>
      match s.perform m call with
      | none => none
      | some (s, answer) =>
          match run m s calls with
          | none => none
          | some (s, answers) => some (s, answer :: answers)

end Session

namespace Pool

variable {c : Config} {p q : Pool}

/-! ### Journals -/

/-- The pool with an empty journal. -/
def quiet (p : Pool) : Pool := { p with journal := #[] }

theorem quiet_grow (c : Config) (p : Pool) : (p.grow c).quiet = (p.quiet.grow c).quiet := by
  obtain ⟨slots, blocks, rejects, fullHead, closedHead, openHead, size, ⟨hn, hl, hb, hr⟩, journal⟩ := p
  cases hn <;> cases hl <;> cases hb <;> rfl

theorem quiet_lowerReject (p : Pool) (k n : Nat) :
    (p.lowerReject k n).quiet = p.quiet.lowerReject k n := by
  unfold lowerReject
  split_ifs with h h' h'
  · rfl
  · exact absurd h h'
  · exact absurd h' h
  · rfl

/-- The pools differ in nothing but their journals. -/
def SameState (p q : Pool) : Prop := p.quiet = q.quiet

theorem SameState.congr {α : Type} (h : p.SameState q) (f : Pool → α) : f p.quiet = f q.quiet :=
  congrArg f h

/-- What operations do does not depend on the journal. -/
theorem lockstep_sameState (c : Config) : Lockstep c SameState where
  alike h := h.congr copy
  modifySlot i f h := h.congr (·.modifySlot i f)
  modifyBlock b f h := h.congr (·.modifyBlock b f)
  setHead r b h := by
    cases r
    · exact h.congr (·.setHead .opened b)
    · exact h.congr (·.setHead .closed b)
    · exact h.congr (·.setHead .full b)
  lowerReject {p q} k n h := by
    unfold SameState
    rw [quiet_lowerReject, quiet_lowerReject, h]
  extend n h := h.congr fun p : Pool => ({ p with size := n } : Pool)
  log _ h := h
  grow {p q} h := by
    unfold SameState
    rw [quiet_grow, quiet_grow c q, h]

end Pool

namespace Trie

variable {t u : Trie}

/-- The trie with an empty journal. -/
def quiet (t : Trie) : Trie := ⟨t.config, t.pool.quiet⟩

/-- The tries differ in nothing but their journals. -/
def SameState (t u : Trie) : Prop := t.config = u.config ∧ t.pool.SameState u.pool

theorem SameState.alike (h : t.SameState u) : t.Alike u := ⟨h.1, h.2.congr Pool.copy⟩

theorem SameState.perform (h : t.SameState u) (call : Call) :
    (t.perform call).1.SameState (u.perform call).1 ∧ (t.perform call).2 = (u.perform call).2 := by
  obtain ⟨ht, hu, hsame, hanswers⟩ :=
    (Pool.lockstep_sameState t.config).run rfl h.1.symm h.2 [call]
  exact ⟨⟨ht.trans hu.symm, hsame⟩, List.head_eq_of_cons_eq hanswers⟩

/-! ### Tries that calls do not fault on -/

/-- The trie is that of a map, and its numbers fit into their fields. -/
structure Fit (t : Trie) : Prop where
  holds : ∃ M, t.Holds M
  ready : t.pool.Ready t.config
  maxTrial_le : t.config.maxTrial ≤ 2147483647

theorem Fit.congr (h : t.Fit) (hu : u.Alike t) : u.Fit := by
  obtain ⟨⟨M, hholds⟩, hready, hmax⟩ := h
  refine ⟨⟨M, hholds.congr hu⟩, ?_, ?_⟩
  · rw [hu.1]
    exact ⟨by rw [hu.2.capacity_eq]; exact hready.capacity_le,
      fun i => by rw [hu.2.slot_eq]; exact hready.word i⟩
  · rw [hu.1]
    exact hmax

theorem Fit.whole (h : t.Fit) : t.pool.Whole := by
  obtain ⟨⟨M, hholds⟩, -, -⟩ := h
  have hkept := hholds.kept
  exact ⟨hkept.size_le, hkept.size_pos.trans hkept.size_le, hkept.capacity_dvd, hkept.size_blocks,
    hkept.size_rejects⟩

theorem Fit.valid (h : t.Fit) : t.config.fault? = none := by
  obtain ⟨⟨M, hholds⟩, -, -⟩ := h
  exact hholds.kept.valid

section

variable {call : Call}

theorem Fit.gives_perform (h : t.Fit) (call : Call) :
    (Program.perform t.config.rules call).Gives t.config t.pool
      ((t.perform call).1.pool, (t.perform call).2) := by
  obtain ⟨⟨M, hholds⟩, hready, hmax⟩ := h
  exact Trie.gives_perform hholds hready hmax call

theorem Fit.run_perform (h : t.Fit)
    (hcap : (t.perform call).1.pool.capacity ≤ Access.maxCapacity) :
    (Program.perform t.config.rules call).run t.config t.pool =
      some ((t.perform call).1.pool, (t.perform call).2) := (h.gives_perform call).run hcap

theorem Fit.config_perform (h : t.Fit) (call : Call) : (t.perform call).1.config = t.config := by
  obtain ⟨⟨M, hholds⟩, -, -⟩ := h
  exact (hholds.perform call).2.1

theorem Fit.perform (h : t.Fit) (hcap : (t.perform call).1.pool.capacity ≤ Access.maxCapacity) :
    (t.perform call).1.Fit := by
  have hrun := h.run_perform hcap
  have hconfig := h.config_perform call
  obtain ⟨⟨M, hholds⟩, hready, hmax⟩ := h
  refine ⟨⟨_, (hholds.perform call).1⟩, ?_, by rwa [hconfig]⟩
  rw [hconfig]
  exact hready.run hrun

end

/-- Calls make a new trie into one that no call faults on. -/
theorem fit_run {e : Encoding} {o : Options} (hcreate : Trie.create e o = .ok t)
    (hmax : o.maxTrial ≤ 2147483647) (calls : List Call)
    (hcap : (t.run calls).1.pool.capacity ≤ Access.maxCapacity) : (t.run calls).1.Fit := by
  have hready := ready_of_create hcreate hmax calls hcap
  obtain ⟨ho, rfl⟩ := validate_of_create hcreate
  obtain ⟨hholds, hconfig, -⟩ := run_holds ho e calls
  exact ⟨⟨_, hholds⟩, hready, by rwa [hconfig]⟩

end Trie

/-! ### Calls on the current trie -/

namespace Session

variable {s : Session} {m : Mapping} {v : Trie} {name : String} {view? : Option View}

theorem lookup_modifyFile (s : Session) (number : Nat) (f : List UInt8 → List UInt8) (file : String) :
    (s.modifyFile number f).files.lookup file = (s.files.lookup file).map fun x =>
      if x.number = number then { x with content := f x.content } else x := by
  unfold modifyFile
  dsimp only
  induction s.files with
  | nil => rfl
  | cons entry rest ih =>
    obtain ⟨name, x⟩ := entry
    rw [List.map_cons, List.lookup_cons, List.lookup_cons]
    cases file == name with
    | true => rfl
    | false => exact ih

/-- A file whose content does not change is the same file. -/
theorem modifyFile_same (s : Session) (number : Nat) {f : List UInt8 → List UInt8}
    (hf : ∀ content, f content = content) : (s.modifyFile number f).files = s.files := by
  unfold modifyFile
  simp [hf]

/-- **A call write by write.** -/
theorem perform_resident (hcurrent : s.current = some name)
    (htrie : s.tries.lookup name = some ⟨v, view?⟩) (hv : v.Fit) {call : Call}
    (hcap : (v.perform call).1.pool.capacity ≤ Access.maxCapacity) :
    ∃ s', s.perform m call = some (s', (v.perform call).2) ∧ s'.current = some name ∧
      s'.tries.lookup name = some ⟨(v.perform call).1.quiet, view?⟩ ∧
      s'.files = view?.elim s.files fun w => (s.modifyFile w.number
        (((Program.perform v.config.rules call).stores v.config v.pool).foldl (w.put m))).files := by
  have hconfig := hv.config_perform call
  have hrun := hv.run_perform hcap
  unfold Session.perform Trie.quiet
  rw [hcurrent]
  dsimp only
  rw [htrie]
  dsimp only
  rw [hrun, hconfig]
  cases view? with
  | none => exact ⟨_, rfl, rfl, Named.lookup_assign .., rfl⟩
  | some w => exact ⟨_, rfl, rfl, Named.lookup_assign .., rfl⟩

/-- **A call after which the file is brought up to date.** -/
theorem change_resident (hcurrent : s.current = some name)
    (htrie : s.tries.lookup name = some ⟨v, view?⟩) (call : Call) :
    ∃ s', s.change (·.perform call) m = some (s', (v.perform call).2) ∧ s'.current = some name ∧
      s'.tries.lookup name = some ⟨(v.perform call).1.quiet, view?⟩ ∧
      s'.files = view?.elim s.files fun w =>
        (s.modifyFile w.number ((v.perform call).1.quiet.pool.writeBack m w)).files := by
  unfold Session.change
  rw [hcurrent]
  dsimp only
  rw [htrie]
  cases view? with
  | none => exact ⟨_, rfl, rfl, Named.lookup_assign .., rfl⟩
  | some w => exact ⟨_, rfl, rfl, Named.lookup_assign .., rfl⟩

/-- The current trie is `u` but for its journal. -/
structure Has (s : Session) (u : Trie) : Prop where
  fit : u.Fit
  resident : ∃ name v view?, s.current = some name ∧ s.tries.lookup name = some ⟨v, view?⟩ ∧
    v.SameState u

section Has

variable {u : Trie}

theorem Has.perform (hs : s.Has u) {call : Call}
    (hcap : (u.perform call).1.pool.capacity ≤ Access.maxCapacity) :
    ∃ s', s.perform m call = some (s', (u.perform call).2) ∧ s'.Has (u.perform call).1 := by
  obtain ⟨hfit, name, v, view?, hcurrent, htrie, hv⟩ := hs
  obtain ⟨hsame, hanswer⟩ := hv.perform call
  obtain ⟨s', hperform, hcurrent', htrie', -⟩ := perform_resident (m := m) hcurrent htrie
    (hfit.congr hv.alike) ((hsame.2.congr Pool.capacity).trans_le hcap)
  rw [hanswer] at hperform
  exact ⟨s', hperform, hfit.perform hcap, name, _, view?, hcurrent', htrie', hsame.1, hsame.2⟩

/-- A call faults that needs more slots than there may be. -/
theorem Has.perform_fault (hs : s.Has u) {call : Call}
    (hcap : Access.maxCapacity < (u.perform call).1.pool.capacity) : s.perform m call = none := by
  obtain ⟨hfit, name, v, view?, hcurrent, htrie, hv⟩ := hs
  obtain ⟨hsame, -⟩ := hv.perform call
  have hrun := ((hfit.congr hv.alike).gives_perform call).fault
    (hcap.trans_eq (hsame.2.congr Pool.capacity).symm)
  unfold Session.perform
  rw [hcurrent]
  dsimp only
  rw [htrie]
  dsimp only
  rw [hrun]

/-- **Calls fault** if one of them needs more slots than there may be. -/
theorem Has.run_fault (hs : s.Has u) {calls : List Call}
    (hcap : Access.maxCapacity < (u.run calls).1.pool.capacity) : s.run m calls = none := by
  induction calls generalizing s u with
  | nil =>
    obtain ⟨⟨-, hready, -⟩, -⟩ := hs
    exact absurd hcap (Nat.not_lt.mpr hready.capacity_le)
  | cons call calls ih =>
    unfold Session.run
    by_cases hcall : (u.perform call).1.pool.capacity ≤ Access.maxCapacity
    · obtain ⟨s', hperform, hs'⟩ := hs.perform (m := m) hcall
      rw [hperform]
      dsimp only
      rw [ih hs' hcap]
    · rw [hs.perform_fault (not_le.mp hcall)]

end Has

/-- **What a call keeps** of a session and of its current trie, any calls keep. -/
theorem run_of_perform {I : Session → Trie → Prop}
    (hstep : ∀ {s u}, I s u → ∀ call, (u.perform call).1.pool.capacity ≤ Access.maxCapacity →
      ∃ s', s.perform m call = some (s', (u.perform call).2) ∧ I s' (u.perform call).1)
    {u : Trie} (h : I s u) (calls : List Call)
    (hcap : (u.run calls).1.pool.capacity ≤ Access.maxCapacity) :
    ∃ s', s.run m calls = some (s', (u.run calls).2) ∧ I s' (u.run calls).1 := by
  induction calls generalizing s u with
  | nil => exact ⟨s, rfl, h⟩
  | cons call calls ih =>
    obtain ⟨s₁, hperform, h₁⟩ := hstep h call ((Trie.capacity_le_run _ calls).trans hcap)
    obtain ⟨s', hrun, h'⟩ := ih h₁ hcap
    refine ⟨s', ?_, h'⟩
    unfold Session.run
    rw [hperform]
    dsimp only
    rw [hrun]
    rfl

end Session

end DoubleArrayTrie
