import DoubleArrayTrie.Proofs.Programs.Moving

/-!
# Programs that change what is stored

To store a value the nodes of a key are made one after the other, and each of them may need a
relocation. To erase a key its nodes are given back from the end upwards, until one has a sibling.

* `Lays.gives_ensureChild`: a child is found or made.
* `Lays.gives_store`, `Lays.run_erase`: values are stored and keys erased.
-/

namespace DoubleArrayTrie

/-! ### The programs -/

namespace Program

/-- A child for a node that has none. -/
def firstChild (rules : Rules) (n : Nat) (label : UInt8) : Program Nat := do
  let e ← placeOne
  occupy rules e label n
  writeSlot n (.base (rules.encoding.ofOffset (e ^^^ label.toNat : Nat)))
  linkChild rules.ordered n (e ^^^ label.toNat) label false
  pure e

/-- A child in a slot that is free. -/
def newChild (rules : Rules) (n k : Nat) (label : UInt8) : Program Nat := do
  occupy rules (k ^^^ label.toNat) label n
  linkChild rules.ordered n k label true
  pure (k ^^^ label.toNat)

def ensureChild (rules : Rules) (n : Nat) (label : UInt8) : Program Nat := do
  let s ← slot n
  let k? ← offset? rules.encoding s.base
  match k? with
  | none => firstChild rules n label
  | some k => do
      let t ← slot (k ^^^ label.toNat)
      if t.check < 0 then newChild rules n k label
      else if t.check = n then pure (k ^^^ label.toNat)
      else relocate rules ⟨n, k, label⟩

def openLeaf (rules : Rules) (n : Nat) : Program Unit := do
  let s ← slot n
  when (rules.encoding.holdsValue s.base ∧ s.base ≠ Encoding.unset) do
    let e ← ensureChild rules n 0
    writeSlot e (.base s.base)

def ensurePath (rules : Rules) (n : Nat) : Key → Program Nat
  | [] => pure n
  | label :: labels => do
      openLeaf rules n
      let m ← ensureChild rules n label
      ensurePath rules m labels

/-- The slot for the value of a node. -/
def valueHome (rules : Rules) (n : Nat) : Program Nat := do
  let s ← slot n
  if rules.encoding.holdsValue s.base then pure n else ensureChild rules n 0

def store (rules : Rules) (key : Key) (value : Int32) : Program (Option Int32) := do
  let n ← ensurePath rules 0 key
  let previous ← valueAt rules.encoding n
  let e ← valueHome rules n
  writeSlot e (.base value.toInt)
  pure previous.value?

/-- Faults unless it ends after so many slots. -/
def prune (rules : Rules) : Nat → Nat → Program Unit
  | 0, _ => fault
  | fuel + 1, e => do
      let s ← slot e
      let n ← index s.check
      let k ← offsetOf rules.encoding n
      let t ← slot n
      let u ← slot (k ^^^ t.child.toNat)
      if u.sibling ≠ 0 then do
        unlinkChild n k (UInt8.ofNat (k ^^^ e))
        release rules.maxTrial e
      else do
        release rules.maxTrial e
        prune rules fuel n

def valueSlot (e : Encoding) (n : Nat) : Program Nat := do
  let s ← slot n
  if e.holdsValue s.base then pure n else offsetOf e n

def erase (rules : Rules) (key : Key) : Program Lookup := do
  let n? ← walk rules.encoding 0 key
  match n? with
  | none => pure .absent
  | some n => do
      let answer ← valueAt rules.encoding n
      match answer with
      | .found v => do
          let e ← valueSlot rules.encoding n
          prune rules (key.length + 1) e
          pure (.found v)
      | other => pure other

end Program

/-- A value that is accepted is a word. -/
theorem Encoding.word_of_accepts {e : Encoding} {v : Int32} (h : e.accepts v = true) :
    e.Word v.toInt := by
  have hfits : Integer.Fits 4 v.toInt := Integer.fits_four.mpr ⟨v.le_toInt, v.toInt_le⟩
  cases e with
  | standard => exact hfits
  | reduced =>
    obtain ⟨hnonneg, hlt⟩ := Encoding.accepts_reduced.mp h
    unfold Encoding.unset at hlt
    exact ⟨hfits, Integer.fits_four.mpr ⟨by omega, by omega⟩⟩

namespace Pool

variable {c : Config} {p : Pool} {T : Outline} {off loc : Trail → Nat} {M : Trail → Prop}
  {data : Trail → Slot} {q t : Trail} {l x : UInt8} {ls : List UInt8} {k n fuel : Nat}

/-! ### The arrays do not get smaller -/

theorem capacity_le_ensureChild (c : Config) (p : Pool) (n : Nat) (label : UInt8) :
    p.capacity ≤ (p.ensureChild c n label).1.capacity :=
  ((lockstep_le_capacity c p.capacity).ensureChild ⟨rfl, le_rfl⟩ n label).1.2

theorem capacity_le_ensurePath (c : Config) (p : Pool) (n : Nat) (key : Key) :
    p.capacity ≤ (p.ensurePath c n key).1.capacity :=
  ((lockstep_le_capacity c p.capacity).ensurePath ⟨rfl, le_rfl⟩ n key).1.2

/-! ### One child -/

namespace Draws

theorem Chain.congr {M' : Trail → Prop} {loc' : Trail → Nat} {data' : Trail → Slot}
    (h : Chain M loc data q k ls) (hM : ∀ v, M v → M' v) (hloc : ∀ v, M v → loc' v = loc v)
    (hdata : ∀ v, M v → data' v = data v) : Chain M' loc' data' q k ls where
  labels := h.labels
  mem := hM q h.mem
  mems l hl := hM _ (h.mems l hl)
  locs l hl := by rw [hloc _ (h.mems l hl), h.locs l hl]
  child := by rw [hdata q h.mem, h.child]
  sibling l hl := by rw [hdata _ (h.mems l hl), h.sibling l hl]

end Draws

namespace Lays

theorem chain (h : p.Lays c T off) (hq : T.Mem q) :
    Draws.Chain T.Mem (locate off) (T.slot c off (locate off)) q (off q) (T.chain q) where
  labels := h.sound.isLabels_chain q
  mem := hq
  mems _ hl := Outline.mem_sib hl hq
  locs l _ := Outline.locate_sib h.root q l
  child := Outline.slot_child q
  sibling l _ := Outline.slot_sibling q l

section

variable (h : p.Lays c T off) (hready : p.Ready c)
include h hready

theorem gives_firstChild (hq : T.Mem q) (hq0 : q ≠ []) (hkids : T.kids q = []) :
    (Program.firstChild c.rules (locate off q) x).Gives c p
      (let (p, e) := p.placeOne c
      let k := e ^^^ x.toNat
      let p := (p.occupy c e x (locate off q)).setBase (locate off q) (c.encoding.ofOffset k)
      (p.linkChild c.ordered (locate off q) k x false, e)) := by
  have hplace := h.draws.kept.gives_placeOne hready.capacity_le
  obtain ⟨hkept, hlive, hfree, -⟩ := h.draws.kept.placeOne
  have hdraws := h.draws.of_live hkept hlive
  unfold Program.firstChild
  generalize p.placeOne c = y at *
  obtain ⟨p', e⟩ := y
  dsimp only at hkept hlive hfree hdraws ⊢
  refine hplace.bind_run ?_ fun hrun => ?_
  · rw [capacity_linkChild, setBase, capacity_modifySlot, capacity_occupy]
  have hready' := hready.run hrun
  have hsize := hready'.size_le hkept
  have hn := hdraws.lt_size hq
  have hk := hkept.xor_lt x hfree.2.1
  have hx : ¬ T.Mem (x :: q) := fun hm => by
    have hxk := hm.2
    rw [hkids] at hxk
    simp at hxk
  have hoccupy := hkept.run_occupy hfree hsize x hn
  have hbase := Program.run_setBase (c := c) (p := p'.occupy c e x (locate off q)) (by simpa using hn)
    (word_ofOffset c.encoding hk hsize)
  have hnew := (hdraws.occupy hfree hx x (locate off q)).setBase (.inl hq)
    (c.encoding.ofOffset (e ^^^ x.toNat : Nat))
  have hqx : q ≠ x :: q := by simp
  rw [Function.update_of_ne hqx] at hnew
  have hchild : (T.slot c off (locate off) q).child = 0 := by
    rw [Outline.slot_child, Outline.chain, if_neg hq0, hkids]
    rfl
  have hslot := hnew.slot_eq (t := q) (.inl hq)
  rw [Function.update_of_ne hqx, Function.update_self, Function.update_of_ne hqx] at hslot
  -- a leaf starts a chain of its own
  have hnone : ((p'.occupy c e x (locate off q)).setBase (locate off q)
      (c.encoding.ofOffset (e ^^^ x.toNat : Nat))).Links (e ^^^ x.toNat) [] :=
    fun _ hl => by simp at hl
  have hlink := hnone.run_linkChild (c := c)
    ⟨List.nodup_nil, by simp⟩ (by simpa [Pool.setBase] using hn)
    (fun l => hnew.kept.xor_lt l (by simpa [Pool.setBase] using hk)) (by rw [hslot]; exact hchild)
    c.ordered x
  refine (Program.run_bind_of hoccupy).trans ((Program.run_bind_of hbase).trans ?_)
  exact (Program.run_bind_of hlink).trans rfl

theorem run_newChild (hq : T.Mem q) (hk : q = [] ∨ T.kids q ≠ []) (hx : x ∉ T.kids q)
    (hfree : p.Free (off q ^^^ x.toNat)) :
    (Program.newChild c.rules (locate off q) (off q) x).run c p =
      some ((p.occupy c (off q ^^^ x.toNat) x (locate off q)).linkChild c.ordered (locate off q)
        (off q) x true, off q ^^^ x.toNat) := by
  have hkept := h.draws.kept
  have hnew : ¬ T.Mem (x :: q) := fun hm => hx hm.2
  have hne : ∀ v, T.Mem v → v ≠ x :: q := by
    rintro v hv rfl
    exact hnew hv
  have hoccupy := hkept.run_occupy hfree (hready.size_le hkept) x (h.draws.lt_size hq)
  have hlink := (h.draws.occupy hfree hnew x (locate off q)).run_linkChild
    ((h.chain hq).congr (fun _ hv => .inl hv) (fun v hv => Function.update_of_ne (hne v hv) ..)
      fun v hv => Function.update_of_ne (hne v hv) ..)
    (by simpa using h.off_lt_size hq hk) c.ordered x
  have hhas : (!(T.chain q).isEmpty) = true := by
    unfold Outline.chain
    split_ifs with hq0
    · rfl
    · simpa using hk.resolve_left hq0
  rw [Function.update_of_ne (hne q hq), hhas] at hlink
  unfold Program.newChild
  exact (Program.run_bind_of hoccupy).trans ((Program.run_bind_of hlink).trans rfl)

end

section

variable (h : p.Lays c T off) (hready : p.Ready c) (hmax : c.maxTrial ≤ 2147483647)
include h hready hmax

/-- **A child is found or made** without a fault, unless the arrays would get too large. -/
theorem gives_ensureChild (hq : T.Mem q) (hroot : q ≠ [] ∨ x ≠ 0) (hterm : ∀ r, q ≠ 0 :: r) :
    (Program.ensureChild c.rules (locate off q) x).Gives c p
      (p.ensureChild c (locate off q) x) := by
  unfold Program.ensureChild Pool.ensureChild
  refine Program.gives_bind_of (Program.run_slot (h.draws.lt_size hq))
    (Program.gives_bind_of (run_offset? (hready.word _)) ?_)
  rw [Config.encoding_rules, h.offset?_base hq hterm]
  by_cases hk : q = [] ∨ T.kids q ≠ []
  · rw [if_pos hk]
    dsimp only
    refine Program.gives_bind_of (Program.run_slot (h.xor_lt hq hk x)) ?_
    by_cases hneg : (p.slot (off q ^^^ x.toNat)).check < 0
    · have hx : x ∉ T.kids q := by
        rw [← h.check_eq_iff hq hk]
        omega
      rw [if_pos hneg, if_pos hneg]
      refine Program.gives_of_run
        (h.run_newChild hready hq hk hx (h.free_of_check hq hk hroot hneg)) ?_
      rw [capacity_linkChild, capacity_occupy]
      exact hready.capacity_le
    rw [if_neg hneg, if_neg hneg]
    by_cases hx : (p.slot (off q ^^^ x.toNat)).check = locate off q
    · rw [if_pos hx, if_pos hx]
      exact Program.gives_of_run rfl hready.capacity_le
    · rw [if_neg hx, if_neg hx]
      have hxk : x ∉ T.kids q := fun hm => hx ((h.check_eq_iff hq hk x).mpr hm)
      have hq0 : q ≠ [] := by
        rintro rfl
        exact hxk (h.mem_kids_root (not_lt.mp hneg))
      exact h.gives_relocate hready hmax hq hq0 (hk.resolve_left hq0) hxk (not_lt.mp hneg)
  · rw [if_neg hk]
    rw [not_or, not_not] at hk
    exact h.gives_firstChild hready hq hk.1 hk.2

/-- A leaf that has a value gives it to a terminal. -/
theorem gives_openLeaf (hq : T.Mem q) (h0 : 0 ∉ q) :
    (Program.openLeaf c.rules (locate off q)).Gives c p (p.openLeaf c (locate off q), ()) := by
  have hleaf := h.leafValue?_eq hq
  unfold Program.openLeaf Pool.openLeaf
  refine Program.gives_bind_of (Program.run_slot (h.draws.lt_size hq)) ?_
  refine Program.gives_when (fun hholds => ?_) hready.capacity_le
  replace hholds : c.encoding.holdsValue (p.slot (locate off q)).base = true ∧
    (p.slot (locate off q)).base ≠ Encoding.unset := hholds
  rw [if_pos hholds] at hleaf
  obtain ⟨hq0, -, -⟩ := Outline.leafValue?_eq_some hleaf
  obtain ⟨off', hlays, hslot⟩ := h.ensureChild (x := 0) hq (.inl hq0) (Outline.ne_terminal h0)
  have hlt := hlays.draws.lt_size (Outline.mem_ensure_self h.sound hq 0)
  rw [← hslot] at hlt
  exact (h.gives_ensureChild hready hmax hq (.inl hq0) (Outline.ne_terminal h0)).bind_run
    (capacity_modifySlot ..) fun _ => Program.run_setBase hlt (hready.word _)

/-- **The nodes of a key are found or made** without a fault, unless the arrays would get too large. -/
theorem gives_ensurePath {key : Key} (hq : T.Mem q) (h0 : 0 ∉ q) (hkey : 0 ∉ key) :
    (Program.ensurePath c.rules (locate off q) key).Gives c p
      (p.ensurePath c (locate off q) key) := by
  induction key generalizing p T off q with
  | nil => exact Program.gives_of_run rfl hready.capacity_le
  | cons x key ih =>
    rw [List.mem_cons, not_or] at hkey
    have hx0 : x ≠ 0 := Ne.symm hkey.1
    have hxq : 0 ∉ x :: q := by
      rw [List.mem_cons, not_or]
      exact ⟨hkey.1, h0⟩
    obtain ⟨off₁, hopen, hself⟩ := h.openLeaf hq h0
    have hq' := (Outline.mem_openLeaf h.sound hq h0).mpr hq
    obtain ⟨off₂, hensure, hslot⟩ := hopen.ensureChild hq' (.inr hx0) (Outline.ne_terminal h0)
    unfold Program.ensurePath Pool.ensurePath
    have hle := capacity_le_ensurePath c ((p.openLeaf c (locate off q)).ensureChild c (locate off q) x).1
      ((p.openLeaf c (locate off q)).ensureChild c (locate off q) x).2 key
    refine (h.gives_openLeaf hready hmax hq h0).bind
      ((capacity_le_ensureChild c _ _ _).trans hle) fun hrun₁ => ?_
    have hready₁ := hready.run hrun₁
    have hchild := hopen.gives_ensureChild hready₁ hmax hq' (.inr hx0) (Outline.ne_terminal h0)
    rw [hself] at hensure hslot hchild
    refine hchild.bind hle fun hrun₂ => ?_
    have hrest := ih hensure (hready₁.run hrun₂) (Outline.mem_ensure_self hopen.sound hq' x) hxq hkey.2
    rwa [← hslot] at hrest

/-- The slot for the value of a node is its own, or that of its terminal. -/
theorem gives_valueHome (hq : T.Mem q) (hq0 : q ≠ []) (h0 : 0 ∉ q) :
    (Program.valueHome c.rules (locate off q)).Gives c p
        (if c.encoding.holdsValue (p.slot (locate off q)).base then (p, locate off q)
          else p.ensureChild c (locate off q) 0) ∧
      (if c.encoding.holdsValue (p.slot (locate off q)).base then (p, locate off q)
        else p.ensureChild c (locate off q) 0).2 <
      (if c.encoding.holdsValue (p.slot (locate off q)).base then (p, locate off q)
        else p.ensureChild c (locate off q) 0).1.size := by
  unfold Program.valueHome
  rw [Config.encoding_rules]
  by_cases hholds : c.encoding.holdsValue (p.slot (locate off q)).base = true
  · rw [if_pos hholds]
    refine ⟨Program.gives_bind_of (Program.run_slot (h.draws.lt_size hq)) ?_, h.draws.lt_size hq⟩
    rw [if_pos hholds]
    exact Program.gives_of_run rfl hready.capacity_le
  · obtain ⟨off', hlays, hslot⟩ := h.ensureChild (x := 0) hq (.inl hq0) (Outline.ne_terminal h0)
    rw [if_neg hholds]
    refine ⟨Program.gives_bind_of (Program.run_slot (h.draws.lt_size hq)) ?_, ?_⟩
    · rw [if_neg hholds]
      exact h.gives_ensureChild hready hmax hq (.inl hq0) (Outline.ne_terminal h0)
    · rw [hslot]
      exact hlays.draws.lt_size (Outline.mem_ensure_self h.sound hq 0)

/-- **A value is stored** without a fault, unless the arrays would get too large. -/
theorem gives_store {key : Key} {v : Int32} (hkey : key ≠ []) (h0 : 0 ∉ key)
    (hv : c.encoding.accepts v = true) :
    (Program.store c.rules key v).Gives c p (p.store c key v) := by
  have hkey' : key.reverse ≠ [] := by simpa using hkey
  have h0' : 0 ∉ key.reverse := by rwa [List.mem_reverse]
  obtain ⟨off₁, hpath, hslot⟩ := h.ensurePath (q := []) trivial (by simp) h0
  obtain ⟨-, hmem⟩ := h.sound.extend (q := []) trivial (by simp) h0
  have hensure := h.gives_ensurePath hready hmax (q := []) trivial (by simp) h0
  rw [List.append_nil] at hslot hmem
  have hroot : locate off [] = 0 := rfl
  rw [hroot] at hpath hslot hensure
  unfold Program.store Pool.store
  dsimp only
  rw [hslot]
  refine hensure.bind ?_ fun hrun => ?_
  · rw [setBase, capacity_modifySlot]
    split_ifs
    · exact le_rfl
    · exact capacity_le_ensureChild ..
  have hready₁ := hready.run hrun
  obtain ⟨hhome, hlt⟩ := hpath.gives_valueHome hready₁ hmax hmem hkey' h0'
  rw [hslot]
  refine Program.gives_bind_of (hpath.run_valueAt hready₁ hmem h0')
    (hhome.bind_run ?_ fun _ => ?_)
  · rw [setBase, capacity_modifySlot]
  · exact (Program.run_bind_of (Program.run_setBase hlt (Encoding.word_of_accepts hv))).trans rfl

end

end Lays

/-! ### Erasing a key -/

namespace Frayed

theorem loc_ne_zero (h : p.Frayed c T off (l :: q) data) : locate off (l :: q) ≠ 0 := fun hzero => by
  simpa using h.draws.inj (l :: q) [] h.mem trivial hzero

theorem off_lt_size (h : p.Frayed c T off (l :: q) data) : off q < p.size := by
  have hlt := h.draws.kept.xor_lt l (h.draws.lt_size h.mem)
  rwa [locate_cons, xor_label_cancel] at hlt

/-- The slot of a child with siblings is linked out and given back. -/
theorem run_unlink (h : p.Frayed c T off (l :: q) data) (hready : p.Ready c) :
    (do
      Program.unlinkChild (locate off q) (off q) l
      Program.release c.maxTrial (locate off (l :: q)) : Program Unit).run c p =
      some ((p.unlinkChild (locate off q) (off q) l).release c (locate off (l :: q)), ()) := by
  have hl := Outline.mem_chain_of_mem h.mem.2
  have hunlink := (h.chain.links h.draws).run_unlinkChild (c := c) h.chain.labels hl
    (h.draws.lt_size h.mem.1) (fun x => h.draws.kept.xor_lt x h.off_lt_size) (h.chain.child_eq h.draws)
  obtain ⟨data', hdraws, -⟩ := h.draws.unlinkChild h.chain hl
  rw [Program.run_bind_of hunlink]
  exact hdraws.kept.run_release (hdraws.live _ h.mem) h.loc_ne_zero
    ((hready.run hunlink).size_le hdraws.kept)

/-- One step upwards. -/
theorem run_prune_succ (h : p.Frayed c T off (l :: q) data) (hready : p.Ready c) (fuel : Nat) :
    (Program.prune c.rules (fuel + 1) (locate off (l :: q))).run c p =
      if T.kids q = [l] ∧ q ≠ [] then
        (Program.prune c.rules fuel (locate off q)).run c (p.release c (locate off (l :: q)))
      else some ((p.unlinkChild (locate off q) (off q) l).release c (locate off (l :: q)), ()) := by
  have hn := h.draws.lt_size h.mem.1
  have hoffset := hready.run_offsetOf hn (by
    rw [h.base_eq, Encoding.offset_ofOffset]
    exact Int.natCast_nonneg _)
  have hmany := h.sibling_ne_zero_iff
  rw [Program.prune, Program.run_bind_of (Program.run_slot (h.draws.lt_size h.mem)), h.check_eq,
    Program.run_bind_of (Program.run_index (Int.natCast_nonneg _)), Int.toNat_natCast]
  refine (Program.run_bind_of hoffset).trans ?_
  rw [h.offsetOf_eq, Program.run_bind_of (Program.run_slot hn),
    Program.run_bind_of (Program.run_slot (h.draws.kept.xor_lt _ h.off_lt_size)), ofNat_xor_locate]
  by_cases honly : T.kids q = [l] ∧ q ≠ []
  · rw [if_neg fun hsome => hmany.mp hsome honly, if_pos honly]
    exact Program.run_bind_of (h.draws.kept.run_release (h.draws.live _ h.mem) h.loc_ne_zero
      (hready.size_le h.draws.kept))
  · rw [if_pos (hmany.mpr honly), if_neg honly]
    exact h.run_unlink hready

/-- **All nodes go that are of no use**, and no slot is given back twice. -/
theorem run_prune (h : p.Frayed c T off (l :: q) data) (hready : p.Ready c)
    (hfuel : (l :: q).length ≤ fuel) :
    (Program.prune c.rules fuel (locate off (l :: q))).run c p =
      some (p.prune c fuel (locate off (l :: q)), ()) := by
  obtain ⟨fuel, rfl⟩ : ∃ n, fuel = n + 1 := ⟨fuel - 1, by rw [List.length_cons] at hfuel; omega⟩
  induction q generalizing p T l data fuel with
  | nil =>
    rw [h.run_prune_succ hready, h.prune_succ, if_neg fun hc => hc.2 rfl, if_neg fun hc => hc.2 rfl]
  | cons m u ih =>
    rw [h.run_prune_succ hready, h.prune_succ]
    split_ifs with honly
    · obtain ⟨fuel, rfl⟩ : ∃ n, fuel = n + 1 :=
        ⟨fuel - 1, by simp only [List.length_cons] at hfuel; omega⟩
      have hrelease := h.draws.kept.run_release (c := c) (h.draws.live _ h.mem) h.loc_ne_zero
        (hready.size_le h.draws.kept)
      exact ih (h.giveBack honly.1 honly.2) (hready.run hrelease) fuel (by simpa using hfuel)
    · rfl

end Frayed

namespace Lays

variable (h : p.Lays c T off) (hready : p.Ready c)
include h hready

theorem run_valueSlot (hq : T.Mem q) {w : Int} (hw : T.value? c q = some w) :
    (Program.valueSlot c.encoding (locate off q)).run c p =
      some (p, p.valueSlot c (locate off q)) := by
  unfold Program.valueSlot Pool.valueSlot
  rw [Program.run_bind_of (Program.run_slot (h.draws.lt_size hq))]
  split_ifs with hholds
  · rfl
  · have hkid : 0 ∈ T.kids q := by
      by_contra hkid
      rw [Outline.value?, if_neg hkid, h.leafValue?_eq hq, if_neg fun hc => hholds hc.1] at hw
      simp at hw
    have hk := List.ne_nil_of_mem hkid
    rw [h.run_offsetOf hready hq (.inr hk), h.offsetOf_eq hq (.inr hk)]

/-- **A key is erased** without a fault. -/
theorem run_erase (key : Key) : (Program.erase c.rules key).run c p = some (p.erase c key) := by
  unfold Program.erase Pool.erase
  refine (Program.run_bind_of (h.run_walk_root hready key)).trans ?_
  cases hn : p.walk c 0 key with
  | none => rfl
  | some n =>
    obtain ⟨h0, hmem, rfl⟩ := h.walk_root.mp hn
    have h0' : 0 ∉ key.reverse := by rwa [List.mem_reverse]
    refine (Program.run_bind_of (h.run_valueAt hready hmem h0')).trans ?_
    dsimp only
    rw [h.valueAt_eq hmem (Outline.ne_terminal h0')]
    cases hw : T.value? c key.reverse with
    | none => rfl
    | some w =>
      obtain ⟨t, hslot, ht, ht0, hleaf, hlen, -⟩ := h.exists_valueSlot hmem hw
      obtain ⟨l, u, rfl⟩ := List.exists_cons_of_ne_nil ht0
      rw [List.length_reverse] at hlen
      dsimp only [Lookup.ofValue]
      refine (Program.run_bind_of (h.run_valueSlot hready hmem hw)).trans ?_
      rw [hslot, Program.run_bind_of ((h.frayed ht hleaf).run_prune hready hlen)]
      rfl

end Lays

end Pool

end DoubleArrayTrie
