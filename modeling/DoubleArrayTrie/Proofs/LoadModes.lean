import DoubleArrayTrie.Proofs.Safety
import DoubleArrayTrie.Proofs.Sharing

/-!
# How a trie is loaded

A trie that is loaded from a file goes on like the one that was saved, in each mode. What differs is
what becomes of the file: a copied trie has left it, the writes of a mapped one stay apart from it, and
those of a shared one go to the parts that its records are still mapped from. Slots and blocks leave
the file where the first growth begins, which is in the middle of a call, and the bounds never do.

* `Program.firstGrowth`, `Trie.firstGrowth`: the pool where the first growth begins.
* `Trie.firstGrowth_run`: what that growth leaves behind.
* `Session.Keeps`: the current trie writes to no file.
* `Session.Writes`: what the file of a shared trie holds.
* `Session.load_modes`: what calls return after each way of loading, and what is in the file.
-/

namespace DoubleArrayTrie

/-! ### Where the first growth begins -/

/-- The access makes the arrays grow. -/
def Access.Grows (p : Pool) : Access → Prop
  | reserve => p.size = p.capacity
  | slot _ | block _ | bound _ | head _ | size | writeSlot .. | writeBlock .. | writeBound ..
  | writeHead .. | log _ | member .. => False

instance (p : Pool) : (x : Access) → Decidable (x.Grows p)
  | .reserve => inferInstanceAs (Decidable (p.size = p.capacity))
  | .slot _ | .block _ | .bound _ | .head _ | .size | .writeSlot .. | .writeBlock .. | .writeBound ..
  | .writeHead .. | .log _ | .member .. => inferInstanceAs (Decidable False)

/-- The pool before the first access of the program that makes the arrays grow, if there is one. A
block is opened when there is room for it. -/
def Program.firstGrowth {α : Type} (c : Config) : Program α → Pool → Option Pool
  | done _, _ => none
  | access x next, p =>
      if x.Grows p then some p else firstGrowth c (next (x.reply p)) (x.effect c p)
  | opening body next, p => (body.run c p).bind fun q => firstGrowth c next q.extend
  | fault, _ => none

/-- The pool where the first growth begins during these calls, if there is one. -/
def Trie.firstGrowth (t : Trie) : List Call → Option Pool
  | [] => none
  | call :: calls =>
      match (Program.perform t.config.rules call).firstGrowth t.config t.pool with
      | some g => some g
      | none => firstGrowth (t.perform call).1 calls

namespace Pool

variable {α : Type} {c : Config} {p q g : Pool} {x : Access} {slots : Array Slot}
  {blocks : Array Block}

theorem effect_of_grows (h : x.Grows p) : x.effect c p = p.grow c := by
  cases x with
  | reserve => exact if_pos h
  | slot | block | bound | head | size | writeSlot | writeBlock | writeBound | writeHead | log
  | member => exact h.elim

/-- No access but growth moves records, or makes the arrays larger. -/
theorem effect_of_not_grows (h : ¬ x.Grows p) :
    (x.effect c p).backing = p.backing ∧ (x.effect c p).capacity = p.capacity := by
  cases x with
  | writeSlot i w => exact ⟨rfl, capacity_modifySlot ..⟩
  | writeHead r b => cases r <;> exact ⟨rfl, rfl⟩
  | reserve =>
    have hsame : Access.effect c p .reserve = p := if_neg h
    rw [hsame]
    exact ⟨rfl, rfl⟩
  | slot | block | bound | head | size | writeBlock | writeBound | log | member => exact ⟨rfl, rfl⟩

/-- No part of it is done while a block is opened. -/
theorem run_opening {body : Opening} (h : body.run c p = some q) :
    q.backing = p.backing ∧ q.capacity = p.capacity := by
  induction body generalizing p with
  | done =>
    obtain rfl := Option.some.inj h
    exact ⟨rfl, rfl⟩
  | access x next ih =>
    rw [Opening.run] at h
    split_ifs at h with hopens
    have hgrows : ¬ x.Grows p := by
      have hlocal := (Access.opens_iff.mp hopens).1
      cases x with
      | reserve => exact hlocal.elim
      | slot | block | bound | head | size | writeSlot | writeBlock | writeBound | writeHead | log
      | member => exact id
    obtain ⟨hbacking, hcapacity⟩ := effect_of_not_grows (c := c) hgrows
    obtain ⟨hbacking', hcapacity'⟩ := ih _ h
    exact ⟨hbacking'.trans hbacking, hcapacity'.trans hcapacity⟩
  | fault => simp [Opening.run] at h

/-- What was left behind stays there. -/
theorem detached_effect (h : p.backing = .detached slots blocks) (x : Access) :
    (x.effect c p).backing = .detached slots blocks := by
  by_cases hgrows : x.Grows p
  · rw [effect_of_grows hgrows, backing_grow_of_detached c h]
  · rw [(effect_of_not_grows hgrows).1, h]

theorem detached_of_run {y : Program α} {a : α} (hy : y.run c p = some (q, a))
    (h : p.backing = .detached slots blocks) : q.backing = .detached slots blocks :=
  Program.run_kept (I := fun r => r.backing = .detached slots blocks)
    (fun hr _ => detached_effect hr _) (fun hr _ => hr) hy h

/-- A program without growth leaves the records where they are. -/
theorem run_of_firstGrowth_eq_none {y : Program α} {a : α} (hy : y.run c p = some (q, a))
    (h : y.firstGrowth c p = none) : q.backing = p.backing ∧ q.capacity = p.capacity := by
  induction y generalizing p with
  | done b =>
    obtain ⟨rfl, -⟩ := Prod.mk.inj (Option.some.inj hy)
    exact ⟨rfl, rfl⟩
  | access x next ih =>
    rw [Program.run] at hy
    rw [Program.firstGrowth] at h
    split_ifs at hy h with hallowed hgrows
    obtain ⟨hbacking, hcapacity⟩ := effect_of_not_grows (c := c) hgrows
    obtain ⟨hbacking', hcapacity'⟩ := ih _ hy h
    exact ⟨hbacking'.trans hbacking, hcapacity'.trans hcapacity⟩
  | opening body next ih =>
    rw [Program.run] at hy
    rw [Program.firstGrowth] at h
    split_ifs at hy
    cases hbody : body.run c p with
    | none => simp [hbody] at hy
    | some r =>
      rw [hbody] at hy h
      obtain ⟨hbacking, hcapacity⟩ := run_opening hbody
      obtain ⟨hbacking', hcapacity'⟩ := ih hy h
      exact ⟨hbacking'.trans hbacking, hcapacity'.trans hcapacity⟩
  | fault => simp [Program.run] at hy

/-- **A program with growth leaves behind what there was when the growth began.** -/
theorem run_of_firstGrowth_eq_some {y : Program α} {a : α} (hy : y.run c p = some (q, a))
    (hmapped : p.backing = .mapped) (h : y.firstGrowth c p = some g) :
    q.backing = .detached g.slots g.blocks := by
  induction y generalizing p with
  | done b => simp [Program.firstGrowth] at h
  | access x next ih =>
    rw [Program.run] at hy
    rw [Program.firstGrowth] at h
    split_ifs at hy h with hallowed hgrows
    · obtain rfl := Option.some.inj h
      refine detached_of_run hy ?_
      rw [effect_of_grows hgrows, backing_grow_of_mapped c hmapped]
    · exact ih _ hy ((effect_of_not_grows hgrows).1.trans hmapped) h
  | opening body next ih =>
    rw [Program.run] at hy
    rw [Program.firstGrowth] at h
    split_ifs at hy
    cases hbody : body.run c p with
    | none => simp [hbody] at hy
    | some r =>
      rw [hbody] at hy h
      exact ih hy ((run_opening hbody).1.trans hmapped) h
  | fault => simp [Program.run] at hy

end Pool

namespace Trie

variable {t : Trie} {calls : List Call}

/-- **What calls on a mapped trie leave in the file**: nothing while it does not grow, and then its
slots and blocks from where the first growth began. -/
theorem Fit.firstGrowth_run (h : t.Fit) (hmapped : t.pool.backing = .mapped)
    (hcap : (t.run calls).1.pool.capacity ≤ Access.maxCapacity) :
    (t.firstGrowth calls = none → (t.run calls).1.pool.capacity = t.pool.capacity) ∧
      ∀ g, t.firstGrowth calls = some g →
        (t.run calls).1.pool.backing = .detached g.slots g.blocks := by
  induction calls generalizing t with
  | nil => exact ⟨fun _ => rfl, fun g hg => by simp [firstGrowth] at hg⟩
  | cons call calls ih =>
    have hcall := (capacity_le_run _ calls).trans hcap
    have hrun := h.run_perform hcall
    unfold firstGrowth
    cases hgrowth : (Program.perform t.config.rules call).firstGrowth t.config t.pool with
    | some g =>
      refine ⟨fun hnone => by simp at hnone, fun g' hg' => ?_⟩
      obtain rfl := Option.some.inj hg'
      exact detached_run (Pool.run_of_firstGrowth_eq_some hrun hmapped hgrowth) calls
    | none =>
      obtain ⟨hbacking, hcapacity⟩ := Pool.run_of_firstGrowth_eq_none hrun hgrowth
      obtain ⟨hsame, hleft⟩ := ih (h.perform hcall) (hbacking.trans hmapped) hcap
      exact ⟨fun hnone => (hsame hnone).trans hcapacity, hleft⟩

end Trie

/-! ### Sessions -/

namespace Session

variable {m : Mapping} {s : Session} {file : String} {number : Nat} {t u : Trie} {files : Named File}

/-- The current trie is `u` but for its journal, and what it writes stays apart from the files. -/
structure Keeps (s : Session) (files : Named File) (u : Trie) : Prop where
  fit : u.Fit
  files : s.files = files
  resident : ∃ name v view?, s.current = some name ∧ s.tries.lookup name = some ⟨v, view?⟩ ∧
    (∀ w, view? = some w → w.sharing = .apart) ∧ v.SameState u

theorem Keeps.trie (hs : s.Keeps files u) : ∃ v, s.trie? = some v ∧ v.SameState u := by
  obtain ⟨-, -, name, v, view?, hcurrent, htrie, -, hv⟩ := hs
  exact ⟨v, Session.trie?_eq hcurrent htrie, hv⟩

theorem Keeps.has (hs : s.Keeps files u) : s.Has u := by
  obtain ⟨hfit, -, name, v, view?, hcurrent, htrie, -, hv⟩ := hs
  exact ⟨hfit, name, v, view?, hcurrent, htrie, hv⟩

/-- What is written apart changes no file. -/
theorem elim_modifyFile_apart {view? : Option View} (hview : ∀ w, view? = some w → w.sharing = .apart)
    {f : View → List UInt8 → List UInt8}
    (hf : ∀ w : View, w.sharing = .apart → ∀ content, f w content = content) :
    (view?.elim s.files fun w => (s.modifyFile w.number (f w)).files) = s.files := by
  cases view? with
  | none => rfl
  | some w => exact modifyFile_same s w.number (hf w (hview w rfl))

section

variable (hm : m.Documented) (hs : s.Keeps files u) {call : Call}
  (hcap : (u.perform call).1.pool.capacity ≤ Access.maxCapacity)

include hm hs hcap

/-- **A call on a trie that writes apart** changes no file. -/
theorem Keeps.perform : ∃ s', s.perform m call = some (s', (u.perform call).2) ∧
    s'.Keeps files (u.perform call).1 := by
  obtain ⟨hfit, hfiles, name, v, view?, hcurrent, htrie, hview, hv⟩ := hs
  obtain ⟨hsame, hanswer⟩ := hv.perform call
  have hcapv : (v.perform call).1.pool.capacity ≤ Access.maxCapacity :=
    (hsame.2.congr Pool.capacity).trans_le hcap
  obtain ⟨s', hperform, hcurrent', htrie', hfiles'⟩ :=
    perform_resident (m := m) hcurrent htrie (hfit.congr hv.alike) hcapv
  rw [hanswer] at hperform
  refine ⟨s', hperform, hfit.perform hcap, ?_, name, _, view?, hcurrent', htrie', hview,
    ⟨hsame.1, hsame.2⟩⟩
  rw [hfiles', elim_modifyFile_apart hview, hfiles]
  rintro ⟨number, sharing, n⟩ rfl content
  exact Pool.foldl_put_apart hm number n _ content

/-- So does one after which the file is brought up to date. -/
theorem Keeps.change : ∃ s', s.change (·.perform call) m = some (s', (u.perform call).2) ∧
    s'.Keeps files (u.perform call).1 := by
  obtain ⟨hfit, hfiles, name, v, view?, hcurrent, htrie, hview, hv⟩ := hs
  obtain ⟨hsame, hanswer⟩ := hv.perform call
  obtain ⟨s', hchange, hcurrent', htrie', hfiles'⟩ := change_resident (m := m) hcurrent htrie call
  rw [hanswer] at hchange
  refine ⟨s', hchange, hfit.perform hcap, ?_, name, _, view?, hcurrent', htrie', hview,
    ⟨hsame.1, hsame.2⟩⟩
  rw [hfiles', elim_modifyFile_apart hview, hfiles]
  rintro ⟨number, sharing, n⟩ rfl content
  exact Pool.writeBack_apart hm number n _ content

end

/-- **Calls on a trie that writes apart** change no file. -/
theorem Keeps.run (hm : m.Documented) (hs : s.Keeps files u) (calls : List Call)
    (hcap : (u.run calls).1.pool.capacity ≤ Access.maxCapacity) :
    ∃ s', s.run m calls = some (s', (u.run calls).2) ∧ s'.Keeps files (u.run calls).1 :=
  run_of_perform (fun hs _ hcap => Keeps.perform hm hs hcap) hs calls hcap

/-- A trie that is not loaded as shared writes apart. -/
theorem keeps_load (ht : t.Encodable) (hfit : t.Fit) {tail : List UInt8}
    (hfile : s.files.lookup file = some ⟨number, t.image ++ tail⟩) (name : String) {mode : LoadMode}
    (hmode : mode ≠ .shared) : ∃ s' u, s.load name t.config.encoding file mode = .ok s' ∧
      s'.trie? = some u ∧ u.Alike t ∧ s'.Keeps s.files u := by
  obtain ⟨s', hload, hcurrent, hfiles, htrie⟩ :=
    load_eq hfile (Trie.ofImage?_image ht mode tail) name
  have halike : Trie.Alike ⟨t.config, { t.pool with backing := mode.backing, journal := #[] }⟩ t :=
    ⟨rfl, rfl⟩
  refine ⟨s', _, hload, Session.trie?_eq hcurrent htrie, halike, hfit.congr halike, hfiles, name, _, _,
    hcurrent, htrie, fun w hw => ?_, rfl, rfl⟩
  cases mode with
  | copy => simp [LoadMode.sharing?] at hw
  | mapped =>
    obtain rfl := Option.some.inj hw
    rfl
  | shared => exact absurd rfl hmode

/-- What the file of a shared trie `u` holds, which was `u₀` when it was loaded and got these calls since:
the header and what follows the parts as they were, and parts of the same length between them. The
bounds are those of the trie, slots and blocks those of the trie up to the first growth and those from
where this growth began after it. -/
structure Writes (s : Session) (file : String) (u₀ u : Trie) (calls : List Call)
    (tail : List UInt8) (slots : Array Slot) (blocks : Array Block) : Prop where
  content : s.content? file = some ((Header.ofTrie u₀).encode ++
    Image.partsBytes slots blocks u.pool.rejects ++ tail)
  size_slots : slots.size = u₀.pool.slots.size
  size_blocks : blocks.size = u₀.pool.blocks.size
  size_rejects : u.pool.rejects.size = u₀.pool.rejects.size
  same : u.pool.capacity = u₀.pool.capacity → slots = u.pool.slots ∧ blocks = u.pool.blocks
  left : u.pool.capacity ≠ u₀.pool.capacity →
    ∃ g, u₀.firstGrowth calls = some g ∧ slots = g.slots ∧ blocks = g.blocks

theorem Shares.writes {u₀ : Trie} {calls : List Call} {tail : List UInt8}
    (hs : s.Shares file u₀ (u₀.run calls).1 tail) (h : u₀.Fit) (hmapped : u₀.pool.backing = .mapped)
    (hcap : (u₀.run calls).1.pool.capacity ≤ Access.maxCapacity)
    (hu : u.SameState (u₀.run calls).1) :
    s.Writes file u₀ u calls tail (u₀.run calls).1.pool.fileSlots
      (u₀.run calls).1.pool.fileBlocks := by
  have hcontent := hs.content
  have hlives := hs.lives
  have hslots : u.pool.slots = (u₀.run calls).1.pool.slots := hu.2.congr Pool.slots
  have hblocks : u.pool.blocks = (u₀.run calls).1.pool.blocks := hu.2.congr Pool.blocks
  have hrejects : u.pool.rejects = (u₀.run calls).1.pool.rejects := hu.2.congr Pool.rejects
  have hcapacity : u.pool.capacity = (u₀.run calls).1.pool.capacity := congrArg Array.size hslots
  refine ⟨?_, hlives.size_fileSlots, hlives.size_fileBlocks.trans h.whole.size_blocks.symm, ?_,
    fun hsame => ?_, fun hgrown => ?_⟩
  · rw [hrejects]
    exact hcontent
  · rw [hrejects]
    exact hs.fit.whole.size_rejects.trans h.whole.size_rejects.symm
  · rw [hcapacity] at hsame
    have hpos : 0 < u₀.pool.capacity := lt_of_lt_of_le (by decide) h.whole.le_capacity
    have hstill := ((Trie.capacity_run h.valid hpos calls).2 hsame).trans hmapped
    rw [Pool.fileSlots_of_mapped hstill, Pool.fileBlocks_of_mapped hstill, hslots, hblocks]
    exact ⟨rfl, rfl⟩
  · rw [hcapacity] at hgrown
    obtain ⟨hnone, hsome⟩ := h.firstGrowth_run hmapped hcap
    obtain ⟨g, hg⟩ := Option.ne_none_iff_exists'.mp fun hn => hgrown (hnone hn)
    have hdetached := hsome g hg
    exact ⟨g, hg, Pool.fileSlots_of_detached hdetached, Pool.fileBlocks_of_detached hdetached⟩

section

variable (hm : m.Documented) (ht : t.Encodable) (hfit : t.Fit) {tail : List UInt8}
  (hfile : s.files.lookup file = some ⟨number, t.image ++ tail⟩) (name : String)

include hm ht hfit hfile

/-- A trie that is loaded as shared goes on like the one that was saved, and writes its parts. -/
theorem load_shared :
    ∃ s₁ u₀, s.load name t.config.encoding file .shared = .ok s₁ ∧ s₁.trie? = some u₀ ∧ u₀.Alike t ∧
      s₁.Has u₀ ∧ ∀ calls, (t.run calls).1.pool.capacity ≤ Access.maxCapacity →
        ∃ s₂ u, s₁.run m calls = some (s₂, (t.run calls).2) ∧ s₂.trie? = some u ∧
          u.SameAnswers (t.run calls).1 ∧
          ∃ slots blocks, s₂.Writes file u₀ u calls tail slots blocks := by
  obtain ⟨s₁, u₀, hload, htrie, halike, hmapped, hshares⟩ := shares_load ht hfit hfile name
  refine ⟨s₁, u₀, hload, htrie, halike, hshares.has, fun calls hcap => ?_⟩
  obtain ⟨hrun, hanswers⟩ := halike.run calls
  rw [← hrun.2.capacity_eq] at hcap
  obtain ⟨s₂, hcalls, hshares'⟩ := hshares.run hm calls hcap
  obtain ⟨u, hu, hstate⟩ := hshares'.trie
  exact ⟨s₂, u, by rwa [hanswers] at hcalls, hu, (hstate.alike.trans hrun).sameAnswers, _, _,
    hshares'.writes (hfit.congr halike) hmapped hcap hstate⟩

/-- A trie that is loaded in another mode goes on like the one that was saved, and writes to no file. -/
theorem load_apart {mode : LoadMode} (hmode : mode ≠ .shared) :
    ∃ s₁ u₀, s.load name t.config.encoding file mode = .ok s₁ ∧ s₁.trie? = some u₀ ∧ u₀.Alike t ∧
      s₁.Has u₀ ∧ ∀ calls, (t.run calls).1.pool.capacity ≤ Access.maxCapacity →
        ∃ s₂ u, s₁.run m calls = some (s₂, (t.run calls).2) ∧ s₂.trie? = some u ∧
          u.SameAnswers (t.run calls).1 ∧ s₂.files = s.files := by
  obtain ⟨s₁, u₀, hload, htrie, halike, hkeeps⟩ := keeps_load ht hfit hfile name hmode
  refine ⟨s₁, u₀, hload, htrie, halike, hkeeps.has, fun calls hcap => ?_⟩
  obtain ⟨hrun, hanswers⟩ := halike.run calls
  rw [← hrun.2.capacity_eq] at hcap
  obtain ⟨s₂, hcalls, hkeeps'⟩ := hkeeps.run hm calls hcap
  obtain ⟨u, hu, hstate⟩ := hkeeps'.trie
  exact ⟨s₂, u, by rwa [hanswers] at hcalls, hu, (hstate.alike.trans hrun).sameAnswers,
    hkeeps'.files⟩

end

/-- **How a trie is loaded makes no difference to what it does**, only to the file, where mappings are
as documented. A file that starts with the image of a trie is loaded in each mode, and the trie that is
loaded goes on like the one whose image it is: any calls return the same, and the two give the same
answers and have the same image. A file that was not loaded as shared stays as it is, and so does a
shared one but for its parts. Calls that need more slots than there may be fault in each mode. -/
theorem load_modes (hm : m.Documented) {o : Options} {e : Encoding}
    (hcreate : Trie.create e o = .ok t) (hmax : o.maxTrial ≤ 2147483647) (before : List Call)
    (hcap : (t.run before).1.pool.capacity ≤ Access.maxCapacity) {tail : List UInt8}
    (hfile : s.files.lookup file = some ⟨number, (t.run before).1.image ++ tail⟩) (name : String)
    (mode : LoadMode) :
    ∃ s₁ u₀, s.load name e file mode = .ok s₁ ∧ s₁.trie? = some u₀ ∧
      u₀.Alike (t.run before).1 ∧ ∀ calls,
      (Access.maxCapacity < ((t.run before).1.run calls).1.pool.capacity → s₁.run m calls = none) ∧
      (((t.run before).1.run calls).1.pool.capacity ≤ Access.maxCapacity → ∃ s₂ u,
        s₁.run m calls = some (s₂, ((t.run before).1.run calls).2) ∧ s₂.trie? = some u ∧
        u.SameAnswers ((t.run before).1.run calls).1 ∧
        (mode ≠ .shared → s₂.files = s.files) ∧
        (mode = .shared → ∃ slots blocks, s₂.Writes file u₀ u calls tail slots blocks)) := by
  have hencodable := Trie.encodable_run hcreate hmax before hcap
  have hfit := Trie.fit_run hcreate hmax before hcap
  have hencoding : (t.run before).1.config.encoding = e := by
    rw [Trie.config_run hcreate before]
  by_cases hmode : mode = .shared
  · subst hmode
    obtain ⟨s₁, u₀, hload, hu₀, halike, hhas, hcalls⟩ := load_shared hm hencodable hfit hfile name
    rw [hencoding] at hload
    refine ⟨s₁, u₀, hload, hu₀, halike, fun calls => ⟨fun hlarge => ?_, fun hcap => ?_⟩⟩
    · exact hhas.run_fault (hlarge.trans_eq (halike.run calls).1.2.capacity_eq.symm)
    · obtain ⟨s₂, u, hrun, hu, hanswers, hwrites⟩ := hcalls calls hcap
      exact ⟨s₂, u, hrun, hu, hanswers, fun hne => absurd rfl hne, fun _ => hwrites⟩
  · obtain ⟨s₁, u₀, hload, hu₀, halike, hhas, hcalls⟩ :=
      load_apart hm hencodable hfit hfile name hmode
    rw [hencoding] at hload
    refine ⟨s₁, u₀, hload, hu₀, halike, fun calls => ⟨fun hlarge => ?_, fun hcap => ?_⟩⟩
    · exact hhas.run_fault (hlarge.trans_eq (halike.run calls).1.2.capacity_eq.symm)
    · obtain ⟨s₂, u, hrun, hu, hanswers, hfiles⟩ := hcalls calls hcap
      exact ⟨s₂, u, hrun, hu, hanswers, fun _ => hfiles, fun heq => absurd heq hmode⟩

/-- A key of two bytes is stored in a new trie that was saved and loaded as shared: it has to grow, and
the file keeps what it held then, with the byte that follows the image. -/
theorem load_modes_reduced : Mapping.direct.Documented ∧ ∃ t, Trie.create .reduced {} = .ok t ∧
    t.pool.capacity ≤ Access.maxCapacity ∧
    t.pool.capacity < (t.run [.insert [97, 98] 1]).1.pool.capacity ∧
    (t.run [.insert [97, 98] 1]).1.pool.capacity ≤ Access.maxCapacity ∧
    ∃ s₁ u₀ s₂ u slots blocks,
      (putFile {} "f" (t.image ++ [7])).load "s" .reduced "f" .shared = .ok s₁ ∧
      s₁.trie? = some u₀ ∧
      s₁.run .direct [.insert [97, 98] 1] = some (s₂, (t.run [.insert [97, 98] 1]).2) ∧
      s₂.trie? = some u ∧ s₂.Writes "f" u₀ u [.insert [97, 98] 1] [7] slots blocks := by
  obtain ⟨t, hcreate, hcapacity⟩ := Trie.exists_create .reduced
  have hcap := (Trie.capacity_run_of_create hcreate [.insert [97, 98] 1]).trans
    (show _ ≤ Access.maxCapacity by decide)
  have hgrown : t.pool.capacity < (t.run [.insert [97, 98] 1]).1.pool.capacity :=
    hcapacity.trans_lt (Trie.blockSize_lt_capacity_run hcreate [97, 98] (by decide) (by decide))
  refine ⟨Mapping.documented_direct, t, hcreate, hcapacity.trans_le (by decide), hgrown, hcap, ?_⟩
  obtain ⟨s₁, u₀, hload, hu₀, -, hmodes⟩ :=
    load_modes Mapping.documented_direct hcreate (by decide) [] (hcapacity.trans_le (by decide))
      (lookup_putFile {} "f" (t.image ++ [7])) "s" .shared
  obtain ⟨s₂, u, hcalls, hu, -, -, hshared⟩ := (hmodes [.insert [97, 98] 1]).2 hcap
  obtain ⟨slots, blocks, hwrites⟩ := hshared rfl
  exact ⟨s₁, u₀, s₂, u, slots, blocks, hload, hu₀, hcalls, hu, hwrites⟩

end Session

end DoubleArrayTrie
