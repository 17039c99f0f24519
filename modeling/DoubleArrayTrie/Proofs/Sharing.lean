import DoubleArrayTrie.Proofs.Restoring
import DoubleArrayTrie.Proofs.Sessions

/-!
# Tries that are shared with a file

What a shared trie writes to its records goes to the file, slots and blocks up to the first growth, but
not the heads of its rings and its size: these stay in the header as they were when the trie was loaded.
So while the trie does not grow, the file holds its records under an old header.

* `Session.Shares`: the current trie shares a file, which has the header of another trie and may hold
  more than its parts.
* `Shares.run`: so it does after any calls.
* `Shares.change_content`: a file that is brought up to date after a call has the same in it.
* `Trie.Reopens`: what is read back, the records of a trie under the heads of another.
* `Session.reopen_shared`: what is loaded from the file of a shared trie that did not grow. It reads as
  the shared trie, and goes on like it if the heads in the file are still on their rings.
-/

namespace DoubleArrayTrie

/-! ### Reading back -/

namespace Trie

variable {t u r : Trie} {M : Entries}

/-- What trie `u` is read back as from a file with the header of trie `t`: its records, under the heads
and the size of the other. -/
structure Reopens (r t u : Trie) : Prop where
  config : r.config = u.config
  records : u.pool.SameRecords r.pool
  heads : ∀ ring, r.pool.head ring = t.pool.head ring
  size : r.pool.size = t.pool.size

theorem Reopens.congr {v : Trie} (h : r.Reopens t u) (hv : v.Alike u) : r.Reopens t v where
  config := h.config.trans hv.1.symm
  records := ⟨h.records.slots.trans (hv.2.congr Pool.slots).symm,
    h.records.blocks.trans (hv.2.congr Pool.blocks).symm,
    h.records.rejects.trans (hv.2.congr Pool.rejects).symm⟩
  heads := h.heads
  size := h.size

theorem Reopens.sameSlots (h : r.Reopens t u) : r.SameSlots u := ⟨h.config, h.records.slots⟩

/-- It holds the same entries if the heads are still on their rings. -/
theorem Reopens.holds (h : r.Reopens t u) (hu : u.Holds M) (hheads : u.pool.Heads r.pool) :
    r.Holds M := hu.of_heads h.config h.records hheads

/-- **It is the same trie** if the heads and the size are still the same, and only then. -/
theorem Reopens.alike_iff (h : r.Reopens t u) : r.Alike u ↔
    (∀ ring, u.pool.head ring = t.pool.head ring) ∧ u.pool.size = t.pool.size := by
  constructor
  · intro halike
    exact ⟨fun ring => by rw [← halike.2.head_eq, h.heads], by rw [← halike.2.size_eq, h.size]⟩
  · rintro ⟨hheads, hsize⟩
    have hopen : r.pool.openHead = u.pool.openHead := (h.heads .opened).trans (hheads .opened).symm
    have hclosed : r.pool.closedHead = u.pool.closedHead :=
      (h.heads .closed).trans (hheads .closed).symm
    have hfull : r.pool.fullHead = u.pool.fullHead := (h.heads .full).trans (hheads .full).symm
    refine ⟨h.config, ?_⟩
    unfold Pool.Alike Pool.copy
    rw [h.records.slots, h.records.blocks, h.records.rejects, hopen, hclosed, hfull, h.size, hsize]

/-- **Parts behind the header of a trie are read back**, those of them that fit, whatever follows. -/
theorem Encodable.read_parts (ht : t.Encodable) {slots : Array Slot} {blocks : Array Block}
    {rejects : Array Int} (hslots : slots.size = t.pool.slots.size)
    (hblocks : blocks.size = t.pool.blocks.size) (hrejects : rejects.size = t.pool.rejects.size)
    (hfits : ∀ e, (slots.getD e {}).Fits)
    (hroot : (slots.getD 0 {}).base = t.config.encoding.rootBase ∧ (slots.getD 0 {}).check = -1)
    (mode : LoadMode) (tail : List UInt8) : ∃ r, ofImage? t.config.encoding mode
        ((Header.ofTrie t).encode ++ Image.partsBytes slots blocks rejects ++ tail) = .ok r ∧
      r.config = t.config ∧ r.pool.slots = slots ∧
      ((∀ b, (blocks.getD b {}).Fits) → r.pool.blocks = blocks) ∧
      ((∀ n, Integer.Fits 2 (rejects.getD n 0)) → r.pool.rejects = rejects) ∧
      (∀ ring, r.pool.head ring = t.pool.head ring) ∧ r.pool.size = t.pool.size := by
  have hread := ht.ofImage?_parts hslots hblocks hrejects (hfits 0) hroot mode tail
  have hstands := Image.stands_parts (Header.ofTrie t) (Image.partsBytes slots blocks rejects) tail
  have hcapacity : (Header.ofTrie t).capacity.toNat = slots.size :=
    (Int.toNat_natCast _).trans hslots.symm
  have hcount : blocks.size = slots.size / blockSize := by
    rw [hblocks, hslots]
    exact ht.size_blocks
  refine ⟨_, hread, rfl, Pool.slots_ofBytes _ hstands hcapacity hfits,
    Pool.blocks_ofBytes _ hstands hcapacity hcount,
    Pool.rejects_ofBytes _ hstands hcapacity hcount (hrejects.trans ht.size_rejects),
    fun ring => ?_, Int.toNat_natCast _⟩
  cases ring <;> exact Int.toNat_natCast _

end Trie

/-! ### Sessions -/

namespace Session

variable {m : Mapping} {s : Session} {file : String} {number : Nat} {t u : Trie} {tail : List UInt8}

/-- The current trie is `u` but for its journal, and shares a file, which has the header of trie `t`
before its parts and the bytes `tail` after them. -/
structure Shares (s : Session) (file : String) (t u : Trie) (tail : List UInt8) : Prop where
  fit : u.Fit
  lives : u.pool.LivesIn t.pool.capacity
  resident : ∃ name number v, s.current = some name ∧
    s.tries.lookup name = some ⟨v, some ⟨number, .shared, t.pool.capacity⟩⟩ ∧ v.SameState u ∧
    s.files.lookup file = some ⟨number, (Header.ofTrie t).encode ++ u.pool.fileParts ++ tail⟩

theorem Shares.trie (hs : s.Shares file t u tail) : ∃ v, s.trie? = some v ∧ v.SameState u := by
  obtain ⟨-, -, name, number, v, hcurrent, htrie, hv, -⟩ := hs
  exact ⟨v, Session.trie?_eq hcurrent htrie, hv⟩

theorem Shares.has (hs : s.Shares file t u tail) : s.Has u := by
  obtain ⟨hfit, -, name, number, v, hcurrent, htrie, hv, -⟩ := hs
  exact ⟨hfit, name, v, _, hcurrent, htrie, hv⟩

theorem Shares.content (hs : s.Shares file t u tail) : s.content? file =
    some ((Header.ofTrie t).encode ++ u.pool.fileParts ++ tail) := by
  obtain ⟨-, -, name, number, v, -, -, -, hfile⟩ := hs
  unfold content?
  rw [hfile]
  rfl

section

variable (hm : m.Documented) (hs : s.Shares file t u tail) {call : Call}
  (hcap : (u.perform call).1.pool.capacity ≤ Access.maxCapacity)

include hs hcap

/-- The pool of a shared trie after a call on it. -/
theorem Shares.lives_perform :
    (u.perform call).1.pool.Whole ∧ (u.perform call).1.pool.LivesIn t.pool.capacity :=
  hs.lives.run hs.fit.valid hs.fit.whole (hs.fit.run_perform hcap)

include hm

/-- **A call on a shared trie** writes its records to the file. -/
theorem Shares.perform : ∃ s', s.perform m call = some (s', (u.perform call).2) ∧
    s'.Shares file t (u.perform call).1 tail := by
  have hlives' := (hs.lives_perform hcap).2
  obtain ⟨hfit, hlives, name, number, v, hcurrent, htrie, hv, hfile⟩ := hs
  obtain ⟨hsame, hanswer⟩ := hv.perform call
  have hfitv := hfit.congr hv.alike
  have hcapv : (v.perform call).1.pool.capacity ≤ Access.maxCapacity :=
    (hsame.2.congr Pool.capacity).trans_le hcap
  obtain ⟨s', hperform, hcurrent', htrie', hfiles⟩ :=
    perform_resident (m := m) hcurrent htrie hfitv hcapv
  rw [hanswer] at hperform
  refine ⟨s', hperform, hfit.perform hcap, hlives', name, number, _, hcurrent', htrie',
    ⟨hsame.1, hsame.2⟩, ?_⟩
  have hlivesv := hlives.congr (q := v.pool) (hv.2.congr Pool.backing) (hv.2.congr Pool.filePart)
  have hparts : v.pool.fileParts = u.pool.fileParts := hv.2.congr Pool.fileParts
  have hparts' : (v.perform call).1.pool.fileParts = (u.perform call).1.pool.fileParts :=
    hsame.2.congr Pool.fileParts
  rw [hfiles, Option.elim_some, lookup_modifyFile, hfile, Option.map_some, if_pos rfl, ← hparts,
    ← hparts', hlivesv.file_run hm hfitv.valid hfitv.whole (hfitv.run_perform hcapv)
      (Header.length_encode _)]

/-- **A call brings the file up to date** as its writes do. -/
theorem Shares.change : ∃ s', s.change (·.perform call) m = some (s', (u.perform call).2) ∧
    s'.Shares file t (u.perform call).1 tail := by
  obtain ⟨hwhole', hlives'⟩ := hs.lives_perform hcap
  obtain ⟨hfit, hlives, name, number, v, hcurrent, htrie, hv, hfile⟩ := hs
  obtain ⟨hsame, hanswer⟩ := hv.perform call
  obtain ⟨s', hchange, hcurrent', htrie', hfiles⟩ := change_resident (m := m) hcurrent htrie call
  rw [hanswer] at hchange
  refine ⟨s', hchange, hfit.perform hcap, hlives', name, number, _, hcurrent', htrie',
    ⟨hsame.1, hsame.2⟩, ?_⟩
  have hlivesv := hlives'.congr (q := (v.perform call).1.quiet.pool) (hsame.2.congr Pool.backing)
    (hsame.2.congr Pool.filePart)
  have hparts : (v.perform call).1.quiet.pool.fileParts = (u.perform call).1.pool.fileParts :=
    hsame.2.congr Pool.fileParts
  have hrejects : u.pool.rejects.size = (v.perform call).1.quiet.pool.rejects.size :=
    hfit.whole.size_rejects.trans (hwhole'.size_rejects.symm.trans
      (hsame.2.congr fun p => p.rejects.size).symm)
  rw [hfiles, Option.elim_some, lookup_modifyFile, hfile, Option.map_some, if_pos rfl, ← hparts,
    hlives.writeBack_eq hm hlivesv hrejects (Header.length_encode _)]

/-- **Both ways of writing to a file** leave the same in it, and return the same. -/
theorem Shares.change_content : ∃ s₁ s₂ answer, s.perform m call = some (s₁, answer) ∧
    s.change (·.perform call) m = some (s₂, answer) ∧ s₁.content? file = s₂.content? file := by
  obtain ⟨s₁, hperform, h₁⟩ := hs.perform hm hcap
  obtain ⟨s₂, hchange, h₂⟩ := hs.change hm hcap
  exact ⟨s₁, s₂, _, hperform, hchange, h₁.content.trans h₂.content.symm⟩

end

/-- **So do any calls.** -/
theorem Shares.run (hm : m.Documented) (hs : s.Shares file t u tail) (calls : List Call)
    (hcap : (u.run calls).1.pool.capacity ≤ Access.maxCapacity) :
    ∃ s', s.run m calls = some (s', (u.run calls).2) ∧ s'.Shares file t (u.run calls).1 tail :=
  run_of_perform (fun hs _ hcap => Shares.perform hm hs hcap) hs calls hcap

/-- A trie that is loaded as shared shares the file. -/
theorem shares_load (ht : t.Encodable) (hfit : t.Fit)
    (hfile : s.files.lookup file = some ⟨number, t.image ++ tail⟩) (name : String) :
    ∃ s' u, s.load name t.config.encoding file .shared = .ok s' ∧ s'.trie? = some u ∧ u.Alike t ∧
      u.pool.backing = .mapped ∧ s'.Shares file u u tail := by
  have hread := Trie.ofImage?_image ht .shared tail
  obtain ⟨s', hload, hcurrent, hfiles, htrie⟩ := load_eq hfile hread name
  have halike : Trie.Alike ⟨t.config, { t.pool with backing := .mapped, journal := #[] }⟩ t :=
    ⟨rfl, rfl⟩
  have hfit' := hfit.congr halike
  refine ⟨s', _, hload, Session.trie?_eq hcurrent htrie, halike, rfl, hfit', hfit'.whole.livesIn rfl,
    name, number, _, hcurrent, htrie, ⟨rfl, rfl⟩, ?_⟩
  rw [hfiles]
  exact hfile

/-- **A trie is saved after some calls and loaded as shared.** -/
theorem share_run {o : Options} {e : Encoding} (hcreate : Trie.create e o = .ok t)
    (hmax : o.maxTrial ≤ 2147483647) (before : List Call)
    (hcap : (t.run before).1.pool.capacity ≤ 2147483648)
    (hfile : s.files.lookup file = some ⟨number, (t.run before).1.image⟩) (name : String) :
    ∃ s' u, s.load name e file .shared = .ok s' ∧ s'.trie? = some u ∧ u.Alike (t.run before).1 ∧
      u.pool.backing = .mapped ∧ s'.Shares file u u [] ∧ u.Encodable ∧ u.config.encoding = e ∧
      u.Holds (Entries.run e ∅ before).1 := by
  have hencodable := Trie.encodable_run hcreate hmax before hcap
  have hfit := Trie.fit_run hcreate hmax before hcap
  have hconfig := Trie.config_run hcreate before
  rw [← List.append_nil (Trie.image _)] at hfile
  obtain ⟨s', u, hload, htrie, halike, hbacking, hshares⟩ := shares_load hencodable hfit hfile name
  rw [hconfig] at hload
  obtain ⟨ho, rfl⟩ := Trie.validate_of_create hcreate
  exact ⟨s', u, hload, htrie, halike, hbacking, hshares, hencodable.congr halike,
    by rw [halike.1, hconfig], (Trie.run_holds ho e before).1.congr halike⟩

/-- **What is read from the file of a shared trie.** -/
theorem Shares.load (hs : s.Shares file t u tail) (ht : t.Encodable)
    (hfits : ∀ e, (u.pool.fileSlots.getD e {}).Fits)
    (hroot : (u.pool.fileSlots.getD 0 {}).base = t.config.encoding.rootBase ∧
      (u.pool.fileSlots.getD 0 {}).check = -1) (name : String) (mode : LoadMode) :
    ∃ s' r, s.load name t.config.encoding file mode = .ok s' ∧ s'.trie? = some r ∧
      r.config = t.config ∧ r.pool.slots = u.pool.fileSlots ∧
      ((∀ b, (u.pool.fileBlocks.getD b {}).Fits) → r.pool.blocks = u.pool.fileBlocks) ∧
      ((∀ n, Integer.Fits 2 (u.pool.reject n)) → r.pool.rejects = u.pool.rejects) ∧
      (∀ ring, r.pool.head ring = t.pool.head ring) ∧ r.pool.size = t.pool.size := by
  obtain ⟨hfit, hlives, -, number, -, -, -, -, hfile⟩ := hs
  have hblocks := hlives.size_fileBlocks.trans ht.size_blocks.symm
  have hrejects := hfit.whole.size_rejects.trans ht.size_rejects.symm
  obtain ⟨r, hread, hr⟩ :=
    ht.read_parts hlives.size_fileSlots hblocks hrejects hfits hroot mode tail
  obtain ⟨s', hload, hcurrent, -, htrie⟩ := load_eq hfile hread name
  exact ⟨s', r, hload, Session.trie?_eq hcurrent htrie, hr⟩

/-- While it is mapped that are its records. -/
theorem Shares.reopens (hs : s.Shares file t u tail) (ht : t.Encodable) (hu : u.Encodable)
    (hconfig : u.config = t.config) (hbacking : u.pool.backing = .mapped) (name : String)
    (mode : LoadMode) : ∃ s' r, s.load name t.config.encoding file mode = .ok s' ∧
      s'.trie? = some r ∧ r.Reopens t u := by
  have hslots := Pool.fileSlots_of_mapped hbacking
  have hblocks := Pool.fileBlocks_of_mapped hbacking
  have hroot := And.intro hu.root_base hu.root_check
  rw [hconfig] at hroot
  obtain ⟨s', r, hload, htrie, hr, hrslots, hrblocks, hrrejects, hheads, hsize⟩ :=
    hs.load ht (by rw [hslots]; exact hu.slots) (by rw [hslots]; exact hroot) name mode
  rw [hslots] at hrslots
  rw [hblocks] at hrblocks
  exact ⟨s', r, hload, htrie, hr.trans hconfig.symm,
    ⟨hrslots, hrblocks hu.blocks, hrrejects hu.rejects⟩, hheads, hsize⟩

/-- **What is loaded from the file of a shared trie** that did not grow, after any calls, where shared
mappings write to their files as documented. It finds and lists what the shared trie does. If the heads
in the file are still on their rings, further calls return the same on both; if they are still the heads
of the shared trie, the two agree in everything. -/
theorem reopen_shared (hm : m.Documented) {o : Options} {e : Encoding} {t : Trie}
    (hcreate : Trie.create e o = .ok t) (hmax : o.maxTrial ≤ 2147483647) (before : List Call)
    (hcap : (t.run before).1.pool.capacity ≤ 2147483648)
    (hfile : s.files.lookup file = some ⟨number, (t.run before).1.image⟩) (name : String) :
    ∃ s₁ u₀, s.load name e file .shared = .ok s₁ ∧ s₁.trie? = some u₀ ∧
      u₀.Alike (t.run before).1 ∧ ∀ calls,
      (u₀.run calls).1.pool.capacity = u₀.pool.capacity →
      ∃ s₂ u, s₁.run m calls = some (s₂, (u₀.run calls).2) ∧ s₂.trie? = some u ∧
        u.Alike (u₀.run calls).1 ∧ ∀ name' mode,
        ∃ s₃ r, s₂.load name' e file mode = .ok s₃ ∧ s₃.trie? = some r ∧
          (∀ key, r.find key = u.find key) ∧ r.entries = u.entries ∧
          (u.pool.Heads r.pool → ∀ more, (r.run more).2 = (u.run more).2 ∧
            ∀ key, (r.run more).1.find key = (u.run more).1.find key) ∧
          ((∀ ring, u.pool.head ring = u₀.pool.head ring) ∧ u.pool.size = u₀.pool.size →
            r.Agree u) := by
  obtain ⟨s₁, u₀, hload, htrie, halike, hmapped, hshares, hencodable₀, hencoding, hholds₀⟩ :=
    share_run hcreate hmax before hcap hfile name
  refine ⟨s₁, u₀, hload, htrie, halike, fun calls hsame => ?_⟩
  obtain ⟨hholds, hconfig, -⟩ := hholds₀.run calls
  have hmapped' : (u₀.run calls).1.pool.backing = .mapped :=
    ((Trie.capacity_run hencodable₀.valid hholds₀.capacity_pos calls).2 hsame).trans hmapped
  have hcap' : (u₀.run calls).1.pool.capacity ≤ 2147483648 := by
    rw [hsame]
    exact hencodable₀.capacity_le
  have hencodable : (u₀.run calls).1.Encodable := by
    have hrun := (halike.run calls).1
    rw [← Trie.run_append] at hrun
    refine Trie.Encodable.congr (Trie.encodable_run hcreate hmax _ ?_) hrun
    rwa [← hrun.2.capacity_eq]
  obtain ⟨s₂, hcalls, hshares'⟩ := hshares.run hm calls hcap'
  obtain ⟨u, hu, hstate⟩ := hshares'.trie
  refine ⟨s₂, u, hcalls, hu, hstate.alike, fun name' mode => ?_⟩
  obtain ⟨s₃, r, hload', hr, hreopens⟩ :=
    hshares'.reopens hencodable₀ hencodable hconfig hmapped' name' mode
  rw [hencoding] at hload'
  have hreopens' := hreopens.congr hstate.alike
  have huholds := hholds.congr hstate.alike
  refine ⟨s₃, r, hload', hr, hreopens'.sameSlots.find_eq, hreopens'.sameSlots.entries_eq,
    fun hheads more => ?_, fun hsame => (hreopens'.alike_iff.mpr hsame).agree⟩
  obtain ⟨hr', -, hranswers⟩ := (hreopens'.holds huholds hheads).run more
  obtain ⟨hu', -, huanswers⟩ := huholds.run more
  rw [hreopens'.config] at hr' hranswers
  exact ⟨hranswers.trans huanswers.symm, fun key => (hr'.find key).trans (hu'.find key).symm⟩

/-- A new trie is saved and loaded as shared, and a key is stored that fits in: the file has it. -/
theorem reopen_shared_reduced : Mapping.direct.Documented ∧
    ∃ t, Trie.create .reduced {} = .ok t ∧ t.pool.capacity ≤ 2147483648 ∧
    ∃ s₁ u₀ s₂ u s₃ r,
      (putFile {} "f" t.image).load "s" .reduced "f" .shared = .ok s₁ ∧
      s₁.trie? = some u₀ ∧ (u₀.run [.insert [97] 1]).1.pool.capacity = u₀.pool.capacity ∧
      s₁.run .direct [.insert [97] 1] = some (s₂, (u₀.run [.insert [97] 1]).2) ∧
      s₂.trie? = some u ∧
      s₂.load "r" .reduced "f" .copy = .ok s₃ ∧ s₃.trie? = some r ∧ r.entries = u.entries := by
  obtain ⟨t, hcreate, hcap, hsame⟩ : ∃ t, Trie.create .reduced {} = .ok t ∧
      t.pool.capacity ≤ 2147483648 ∧
      (t.run [.insert [97] 1]).1.pool.capacity = t.pool.capacity := by
    refine ⟨_, (Trie.create_eq (o := {}) rfl .reduced).1, ?_, ?_⟩
    · unfold Trie.empty
      rw [Pool.capacity_empty]
      decide
    · rw [Trie.capacity_run_singleton rfl]
      unfold Trie.empty
      rw [Pool.capacity_empty]
  refine ⟨Mapping.documented_direct, t, hcreate, hcap, ?_⟩
  obtain ⟨s₁, u₀, hload, hu₀, halike, hreopen⟩ :=
    reopen_shared Mapping.documented_direct hcreate (by decide) [] hcap
      (lookup_putFile {} "f" t.image) "s"
  have hsame' : (u₀.run [.insert [97] 1]).1.pool.capacity = u₀.pool.capacity := by
    rw [(halike.run _).1.2.capacity_eq, halike.2.capacity_eq]
    exact hsame
  obtain ⟨s₂, u, hcalls, hu, -, hfile⟩ := hreopen [.insert [97] 1] hsame'
  obtain ⟨s₃, r, hload', hr, -, hentries, -⟩ := hfile "r" .copy
  exact ⟨s₁, u₀, s₂, u, s₃, r, hload, hu₀, hsame', hcalls, hu, hload', hr, hentries⟩

end Session

end DoubleArrayTrie
