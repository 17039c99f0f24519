import DoubleArrayTrie.Proofs.Image.Encodable
import DoubleArrayTrie.Proofs.Programs.Linking

/-!
# Programs that move children

In the middle of a move the slots of some children are at the new offset already, and the others are
at the old one. A child that moves leaves a slot that is in use and comes to one that is free, and its
word is an offset only if it has children.

* `Draws.run_settle`, `Draws.run_carry`: a child comes to another slot.
* `Joining.run_moveWith`, `Yielding.run_moveAway`: all children do.
* `Lays.gives_relocate`: a conflict over a slot is settled.
-/

namespace DoubleArrayTrie

/-! ### The programs -/

namespace Program

open Pool (Request withNext)

def adopt (e k : Nat) (first : UInt8) : Program Unit := do
  let labels ← chainFrom k maxChildren first
  forEach labels fun l => writeSlot (k ^^^ l.toNat) (.check e)

def carry (e : Encoding) (old new : Nat) (label : UInt8) : Program Unit := do
  let s ← slot old
  writeSlot new (.base s.base)
  if label = 0 ∨ e.holdsValue s.base then pure ()
  else do
    let k? ← offset? e s.base
    match k? with
    | none => pure ()
    | some k => do
        let t ← slot old
        writeSlot new (.child t.child)
        adopt new k t.child

def settle (rules : Rules) (n k : Nat) (label next : UInt8) : Program Unit := do
  occupy rules (k ^^^ label.toNat) label n
  writeSlot (k ^^^ label.toNat) (.sibling next)

def moveWith (rules : Rules) (n k k' : Nat) (wanted : UInt8) (labels : List UInt8) : Program Unit :=
  forEach (withNext labels) fun (label, next) => do
    settle rules n k' label next
    if label = wanted then pure ()
    else do
      carry rules.encoding (k ^^^ label.toNat) (k' ^^^ label.toNat) label
      release rules.maxTrial (k ^^^ label.toNat)

/-- Gives a slot to the node that asks for it, or back. -/
def handOver (rules : Rules) (old : Nat) (r : Request) : Program Unit :=
  if old = r.slot then do
    linkChild rules.ordered r.node r.offset r.label true
    writeSlot old (.child 0)
    writeSlot old (.node (rules.encoding.fresh r.label) r.node)
  else release rules.maxTrial old

def yieldSlot (rules : Rules) (owner k k' : Nat) (r : Request) (label next : UInt8) :
    Program Request := do
  settle rules owner k' label next
  carry rules.encoding (k ^^^ label.toNat) (k' ^^^ label.toNat) label
  let r := if k ^^^ label.toNat = r.node then { r with node := k' ^^^ label.toNat } else r
  handOver rules (k ^^^ label.toNat) r
  pure r

def moveAway (rules : Rules) (owner k k' : Nat) : List (UInt8 × UInt8) → Request → Program Unit
  | [], _ => pure ()
  | (label, next) :: rest, r => do
      let r ← yieldSlot rules owner k k' r label next
      moveAway rules owner k k' rest r

/-- Moves the children of the node that asks, with the new one among them. -/
def moveMine (rules : Rules) (r : Request) (labels : List UInt8) : Program Nat := do
  let e ← place rules.maxTrial labels
  let k' := e ^^^ (labels.headD 0).toNat
  when (labels.headD 0 = r.label) (writeSlot r.node (.child r.label))
  writeSlot r.node (.base (rules.encoding.ofOffset k'))
  moveWith rules r.node r.offset k' r.label labels
  pure (k' ^^^ r.label.toNat)

/-- Moves the children of the owner of the slot. -/
def moveTheirs (rules : Rules) (r : Request) (owner k : Nat) (labels : List UInt8) :
    Program Nat := do
  let e ← place rules.maxTrial labels
  let k' := e ^^^ (labels.headD 0).toNat
  writeSlot owner (.base (rules.encoding.ofOffset k'))
  moveAway rules owner k k' (withNext labels) r
  pure r.slot

def relocate (rules : Rules) (r : Request) : Program Nat := do
  let s ← slot r.slot
  let owner ← index s.check
  let k ← offsetOf rules.encoding owner
  let mine ← chain r.node r.offset
  let theirs ← chain owner k
  if mine.length < theirs.length then moveMine rules r (insertLabel rules.ordered r.label mine)
  else moveTheirs rules r owner k theirs

end Program

namespace Pool

variable {c : Config} {p : Pool} {T : Outline} {off loc : Trail → Nat} {M : Trail → Prop}
  {data : Trail → Slot} {q t u w : Trail} {l x y next : UInt8} {ls ds rest : List UInt8}
  {e k n : Nat}

/-! ### One child -/

/-- A child comes to a free slot. -/
theorem WellKept.run_settle (hp : p.WellKept c) (hready : p.Ready c) (hfree : p.Free (k ^^^ l.toNat))
    (hn : n < p.size) (next : UInt8) :
    (Program.settle c.rules n k l next).run c p = some (p.settle c n k l next, ()) := by
  unfold Program.settle
  rw [Program.run_bind_of (hp.run_occupy hfree (hready.size_le hp) l hn)]
  exact Program.run_setSibling (by simpa using hfree.2.1) next

theorem Links.run_adopt (h : p.Links k ls) (hls : IsLabels ls) (hne : ls ≠ [])
    (hk : ∀ x : UInt8, k ^^^ x.toNat < p.size) (he : Integer.Fits 4 e) :
    (Program.adopt e k (ls.headD 0)).run c p = some (p.adopt e k (ls.headD 0), ()) := by
  obtain ⟨l, ls, rfl⟩ := List.exists_cons_of_ne_nil hne
  unfold Program.adopt Pool.adopt
  rw [List.headD_cons, Program.run_bind_of (h.run_chainFrom hls hk hls.length_le),
    chainFrom_eq h hls hls.length_le]
  exact Program.run_forEach (I := fun q => q.size = p.size)
    (fun q hq l _ => ⟨Program.run_setCheck (hq ▸ hk l) he, hq⟩) rfl

namespace Draws

/-- A new label is linked into the chain of a node. -/
theorem run_linkChild (h : p.Draws c M loc data) (hc : Chain M loc data q k ls) (hk : k < p.size)
    (ordered : Bool) (x : UInt8) :
    (Program.linkChild ordered (loc q) k x (!ls.isEmpty)).run c p =
      some (p.linkChild ordered (loc q) k x (!ls.isEmpty), ()) :=
  (hc.links h).run_linkChild hc.labels (h.lt_size hc.mem) (fun l => h.kept.xor_lt l hk)
    (hc.child_eq h) ordered x

theorem Below.congr {M' : Trail → Prop} {loc' : Trail → Nat} {data' : Trail → Slot}
    (h : Below c M loc data l t ls) (ht : M t) (hM : ∀ v, M v → M' v)
    (hloc : ∀ v, M v → loc' v = loc v) (hdata : ∀ v, M v → data' v = data v) :
    Below c M' loc' data' l t ls where
  labels := h.labels
  mems m hm := hM _ (h.mems m hm)
  child := by rw [hdata t ht, h.child]
  sibling m hm := by rw [hdata _ (h.mems m hm), h.sibling m hm]
  leaf := by
    rw [hdata t ht]
    exact h.leaf
  inner hne := by
    obtain ⟨hl, k, hk, hlocs⟩ := h.inner hne
    refine ⟨hl, k, by rw [hdata t ht, hk], fun m hm => ?_⟩
    rw [hloc _ (h.mems m hm), hlocs m hm]

/-- The word of a child goes along, and its children are told. -/
theorem run_carry (h : p.Draws c M loc data) (hready : p.Ready c) (ht : M t)
    (hbelow : Below c M loc data l t ls) (he : e < p.size) :
    (Program.carry c.encoding (loc t) e l).run c p = some (p.carry c (loc t) e l, ()) := by
  have hold := h.lt_size ht
  have hword := hready.word (loc t)
  have hslot := h.slot_eq ht
  unfold Program.carry Pool.carry
  rw [Program.run_bind_of (Program.run_slot hold),
    Program.run_bind_of (Program.run_setBase he hword)]
  dsimp only
  split_ifs with hvalue
  · rfl
  rw [Program.run_bind_of (run_offset? hword)]
  by_cases hls : ls = []
  · have hnone := (hbelow.leaf hls).resolve_left fun h0 => hvalue (.inl h0)
    rw [hslot] at hvalue ⊢
    rw [hnone.resolve_left fun hv => hvalue (.inr hv)]
    rfl
  obtain ⟨-, k, hk, hlocs⟩ := hbelow.inner hls
  have hoffset : c.encoding.offset? (p.slot (loc t)).base = some k := by
    rw [hslot, hk, Encoding.offset?_ofOffset]
  have hsame : ((p.setBase e (p.slot (loc t)).base).slot (loc t)).child = ls.headD 0 := by
    unfold Pool.setBase
    rw [slot_modifySlot, ← hbelow.child, ← hslot]
    split_ifs <;> rfl
  -- the children of the child are where its word says
  have hlinks : ((p.setBase e (p.slot (loc t)).base).setChild e (ls.headD 0)).Links k ls := by
    intro m hm
    have hm' := h.slot_eq (hbelow.mems m hm)
    rw [hlocs m hm] at hm'
    rw [← hbelow.sibling m hm, ← hm']
    unfold Pool.setBase Pool.setChild
    rw [slot_modifySlot, slot_modifySlot]
    split_ifs <;> rfl
  have hrange : ∀ m : UInt8, k ^^^ m.toNat < p.size := by
    obtain ⟨m, hm⟩ := List.exists_mem_of_ne_nil _ hls
    have hlt := h.kept.xor_lt m (h.lt_size (hbelow.mems m hm))
    rw [hlocs m hm, xor_label_cancel] at hlt
    exact fun m => h.kept.xor_lt m hlt
  rw [hoffset]
  dsimp only
  rw [Program.run_bind_of (Program.run_slot (p := p.setBase _ _) hold), hsame,
    Program.run_bind_of (Program.run_setChild (p := p.setBase _ _) he _)]
  exact hlinks.run_adopt hbelow.labels hls hrange (fits_slot (hready.size_le h.kept) he).1

/-- **A child comes to a free slot**, and its word and its children follow. -/
theorem run_shift (h : p.Draws c M loc data) (hready : p.Ready c) (ht : M (l :: q)) (hw : ¬ M w)
    (hbelow : Below c M loc data l (l :: q) ls) (hfree : p.Free (k ^^^ l.toNat)) (hn : n < p.size)
    (next : UInt8) :
    (Program.settle c.rules n k l next).run c p = some (p.settle c n k l next, ()) ∧
      (Program.carry c.encoding (loc (l :: q)) (k ^^^ l.toNat) l).run c (p.settle c n k l next) =
        some ((p.settle c n k l next).carry c (loc (l :: q)) (k ^^^ l.toNat) l, ()) := by
  have hsettle := h.kept.run_settle hready hfree hn next
  have hne : ∀ v, M v → v ≠ w := by
    rintro v hv rfl
    exact hw hv
  have hdraws := (h.occupy hfree hw l n).setSibling (.inr rfl) next
  rw [Function.update_self] at hdraws
  have hcarry := run_carry (e := k ^^^ l.toNat) hdraws (hready.run hsettle) (.inl ht)
    (hbelow.congr ht (fun _ hv => .inl hv) (fun v hv => Function.update_of_ne (hne v hv) ..)
      fun v hv => by rw [Function.update_of_ne (hne v hv), Function.update_of_ne (hne v hv)])
    (by simpa [Pool.setSibling] using hfree.2.1)
  rw [Function.update_of_ne (hne _ ht)] at hcarry
  exact ⟨hsettle, hcarry⟩

/-- The slot that the child leaves is given back. -/
theorem run_release_shift (h : p.Draws c M loc data) (hready : p.Ready c) (ht : M (l :: q))
    (hw : ¬ M w) (hbelow : Below c M loc data l (l :: q) ls) (hfree : p.Free (k ^^^ l.toNat))
    (hn : n < p.size) (h0 : loc (l :: q) ≠ 0) (next : UInt8) :
    (Program.release c.maxTrial (loc (l :: q))).run c
        ((p.settle c n k l next).carry c (loc (l :: q)) (k ^^^ l.toNat) l) =
      some (((p.settle c n k l next).carry c (loc (l :: q)) (k ^^^ l.toNat) l).release c
        (loc (l :: q)), ()) := by
  obtain ⟨hsettle, hcarry⟩ := h.run_shift hready ht hw hbelow hfree hn next
  have hmoved := h.moveChild ht hw hbelow hfree n next
  have hlive := hmoved.live w (.inr rfl)
  have hloc : moved loc (l :: q) w (k ^^^ l.toNat) w = loc (l :: q) := by
    unfold moved
    rw [Function.update_of_ne (by rintro rfl; exact hw ht), Function.update_self]
  rw [hloc] at hlive
  exact hmoved.kept.run_release hlive h0 (((hready.run hsettle).run hcarry).size_le hmoved.kept)

end Draws

/-! ### All children of the node that asks -/

/-- A child comes to the new offset, and its slot is given back. -/
theorem Joining.run_move (hT : T.Sound c) (hq : T.Mem q) (hx : x ∉ T.kids q)
    (h : p.Joining c T off q x k ds) (hready : p.Ready c) (hl : l ∈ T.kids q) (hlds : l ∉ ds)
    (hq0 : q ≠ []) (hfree : p.Free (k ^^^ l.toNat)) :
    (Program.settle c.rules (locate off q) k l (nextLabel l ((T.graft c q x).kids q))).run c p =
        some (p.settle c (locate off q) k l (nextLabel l ((T.graft c q x).kids q)), ()) ∧
      (do
        Program.carry c.encoding (off q ^^^ l.toNat) (k ^^^ l.toNat) l
        Program.release c.maxTrial (off q ^^^ l.toNat) : Program Unit).run c
          (p.settle c (locate off q) k l (nextLabel l ((T.graft c q x).kids q))) =
        some (((p.settle c (locate off q) k l (nextLabel l ((T.graft c q x).kids q))).carry c
          (off q ^^^ l.toNat) (k ^^^ l.toNat) l).release c (off q ^^^ l.toNat), ()) := by
  have hbelow := Joining.below off k hT hq hx ds hl hq0
  have hspare : ¬ joined T q x ds Outline.spare := fun hs =>
    (sound_graft hT hq hx hl hq0).not_mem_spare (mem_graft_of_joined hT hq hx hs)
  have hn := Draws.lt_size h (t := q) (.inl hq)
  rw [mix_self] at hn
  obtain ⟨hsettle, hcarry⟩ := Draws.run_shift h hready (.inl ⟨hq, hl⟩) hspare hbelow hfree hn
    (nextLabel l ((T.graft c q x).kids q))
  have hrelease := Draws.run_release_shift h hready (.inl ⟨hq, hl⟩) hspare hbelow hfree hn
    (h.loc_ne_zero hq hl) (nextLabel l ((T.graft c q x).kids q))
  rw [mix_of_notMem hlds, locate_cons] at hcarry hrelease
  exact ⟨hsettle, (Program.run_bind_of hcarry).trans hrelease⟩

/-- **All children come to the new offset**, one after the other. -/
theorem Joining.run_moveWith (hT : T.Sound c) (hq : T.Mem q) (hx : x ∉ T.kids q)
    (h : p.Joining c T off q x k ds) (hready : p.Ready c)
    (hsplit : (T.graft c q x).kids q = ds ++ rest) (hq0 : q ≠ []) (hsize : k < p.size)
    (hfresh : ∀ l ∈ rest, ∀ t, T.Mem t → locate off t ≠ k ^^^ l.toNat) :
    (Program.moveWith c.rules (locate off q) (off q) k x rest).run c p =
      some (p.moveWith c (locate off q) (off q) k x rest, ()) := by
  induction rest generalizing p ds with
  | nil => rfl
  | cons l rest ih =>
    have hlabels : IsLabels ((T.graft c q x).kids q) := by
      rw [Outline.kids_graft_self]
      exact (hT.labels q).insertLabel hx _
    obtain ⟨hlds, hnext⟩ := hlabels.of_split hsplit
    have hlmem : l = x ∨ l ∈ T.kids q := by
      rw [← mem_insertLabel (o := c.ordered), ← Outline.kids_graft_self, hsplit]
      simp
    have hfree := h.free hsize hlds (hfresh l List.mem_cons_self)
    have hn : locate off q < p.size := by
      have hlt := Draws.lt_size h (t := q) (.inl hq)
      rwa [mix_self] at hlt
    have hmore : ∀ {p' : Pool}, p'.Joining c T off q x k (ds ++ [l]) → p'.Ready c →
        (Program.moveWith c.rules (locate off q) (off q) k x rest).run c p' =
          some (p'.moveWith c (locate off q) (off q) k x rest, ()) := by
      intro p' hp' hready'
      refine ih hp' hready' (by rw [hsplit, List.append_assoc]; rfl) ?_ fun m hm =>
        hfresh m (List.mem_cons_of_mem _ hm)
      have hjoined : joined T q x (ds ++ [l]) (l :: q) := by
        rcases hlmem with rfl | hl
        · exact .inr ⟨rfl, by simp⟩
        · exact .inl ⟨hq, hl⟩
      have hlt := hp'.kept.xor_lt l (Draws.lt_size hp' hjoined)
      rwa [mix_of_mem (by simp), locate_update_cons, xor_label_cancel] at hlt
    unfold Program.moveWith Pool.moveWith at hmore ⊢
    rw [withNext_cons, List.foldl_cons, Program.forEach, hnext]
    dsimp only
    by_cases hlx : l = x
    · subst hlx
      have hrun := h.kept.run_settle hready hfree hn (nextLabel l ((T.graft c q l).kids q))
      rw [if_pos rfl, if_pos rfl]
      refine (Program.run_bind_of ((Program.run_bind_of hrun).trans rfl)).trans ?_
      exact hmore (h.occupy hT hq hx hlds hfree) (hready.run hrun)
    · have hl := hlmem.resolve_left hlx
      have hrun := h.run_move hT hq hx hready hl hlds hq0 hfree
      rw [if_neg hlx, if_neg hlx]
      obtain ⟨hsettle, hrest⟩ := hrun
      refine (Program.run_bind_of ((Program.run_bind_of hsettle).trans hrest)).trans ?_
      exact hmore (h.move hT hq hx hl hlds hq0 hfree) ((hready.run hsettle).run hrest)

/-! ### All children of the owner -/

section

variable (hT : T.Sound c) (hc : Contest T off q x u y)
include hT hc

/-- The slot that was asked for becomes that of the new child. -/
theorem Yielding.run_give (h : p.Yielding c T off q x u y k ds) (hyds : y ∉ ds)
    (hfree : p.Free (k ^^^ y.toNat))
    (hready : ((p.settle c (locate off u) k y (nextLabel y (T.kids u))).carry c (off u ^^^ y.toNat)
      (k ^^^ y.toNat) y).Ready c) {n : Nat}
    (hn : n = mix (ds ++ [y]) u (locate off) (locate (Function.update off u k)) q) :
    (do
      Program.linkChild c.ordered n (off q) x true
      Program.writeSlot (off u ^^^ y.toNat) (.child 0)
      Program.writeSlot (off u ^^^ y.toNat) (.node (c.encoding.fresh x) n) : Program Unit).run c
        ((p.settle c (locate off u) k y (nextLabel y (T.kids u))).carry c (off u ^^^ y.toNat)
          (k ^^^ y.toNat) y) =
      some (((((p.settle c (locate off u) k y (nextLabel y (T.kids u))).carry c (off u ^^^ y.toNat)
        (k ^^^ y.toNat) y).linkChild c.ordered n (off q) x true).setChild (off u ^^^ y.toNat)
          0).setNode (off u ^^^ y.toNat) (c.encoding.fresh x) n, ()) := by
  have hmoved := h.shifted hT hc hyds hfree
  have hchain := Yielding.chain (c := c) (k := k) hT hc ds
  have hhas : (!(T.chain q).isEmpty) = true := by
    unfold Outline.chain
    rw [if_neg hc.asker_ne]
    simpa using hc.kids
  have hx := hmoved.lt_size (t := x :: q) (.inr rfl)
  have hnlt := hmoved.lt_size (t := q) (.inl hc.asker)
  rw [Yielding.loc_child hc] at hx
  rw [← hn] at hnlt
  have hoff := hmoved.kept.xor_lt x hx
  rw [xor_label_cancel] at hoff
  have hlink := hmoved.run_linkChild hchain hoff c.ordered x
  rw [hhas, ← hn] at hlink
  rw [hc.slot] at hx
  rw [Program.run_bind_of hlink, Program.run_bind_of (Program.run_setChild (by simpa using hx) 0)]
  exact Program.run_setNode (by simpa [Pool.setChild] using hx) (c.encoding.word_fresh x)
    (fits_slot (hready.size_le hmoved.kept) hnlt).1

/-- One child moves. -/
theorem Yielding.run_yieldSlot (h : p.Yielding c T off q x u y k ds) (hready : p.Ready c)
    (hl : l ∈ T.kids u) (hlds : l ∉ ds) (hfree : p.Free (k ^^^ l.toNat)) :
    (Program.yieldSlot c.rules (locate off u) (off u) k
      ⟨mix ds u (locate off) (locate (Function.update off u k)) q, off q, x⟩ l
      (nextLabel l (T.kids u))).run c p =
    some (p.yieldSlot c (locate off u) (off u) k
      ⟨mix ds u (locate off) (locate (Function.update off u k)) q, off q, x⟩ l
      (nextLabel l (T.kids u))) := by
  have hmem : (granted c T q x y ds).Mem (l :: u) :=
    (mem_granted hT hc _).mpr (.inl ⟨hc.owner, hl⟩)
  have hbelow := Yielding.below off k ds hT hc hl
  have hspare := (sound_granted hT hc ds).not_mem_spare
  have hn := Draws.lt_size h (t := u) ((mem_granted hT hc _).mpr (.inl hc.owner))
  rw [mix_self] at hn
  obtain ⟨hsettle, hcarry⟩ := Draws.run_shift h.named hready hmem hspare hbelow hfree hn
    (nextLabel l (T.kids u))
  have hrelease := Draws.run_release_shift h.named hready hmem hspare hbelow hfree hn
    (h.loc_ne_zero hT hc hl) (nextLabel l (T.kids u))
  have hready' := (hready.run hsettle).run hcarry
  rw [mix_of_notMem hlds, locate_cons] at hcarry hrelease hready'
  unfold Program.yieldSlot Pool.yieldSlot Request.slot
  rw [Program.run_bind_of hsettle]
  refine (Program.run_bind_of hcarry).trans ?_
  dsimp only
  rw [h.request_eq hT hc hl hlds]
  dsimp only
  unfold Program.handOver Request.slot
  dsimp only
  by_cases hly : l = y
  · rw [if_pos ((Yielding.slot_eq_iff hc).mpr hly), if_pos ((Yielding.slot_eq_iff hc).mpr hly)]
    subst hly
    exact (Program.run_bind_of (h.run_give hT hc hlds hfree hready' rfl)).trans rfl
  · rw [if_neg fun heq => hly ((Yielding.slot_eq_iff hc).mp heq),
      if_neg fun heq => hly ((Yielding.slot_eq_iff hc).mp heq)]
    exact (Program.run_bind_of hrelease).trans rfl

/-- **All children come to the new offset**, one after the other. -/
theorem Yielding.run_moveAway (h : p.Yielding c T off q x u y k ds) (hready : p.Ready c)
    (hsplit : T.kids u = ds ++ rest) (hsize : k < p.size)
    (hfresh : ∀ l ∈ rest, ∀ t, T.Mem t → locate off t ≠ k ^^^ l.toNat) :
    (Program.moveAway c.rules (locate off u) (off u) k (withNext rest)
      ⟨mix ds u (locate off) (locate (Function.update off u k)) q, off q, x⟩).run c p =
    some (p.moveAway c (locate off u) (off u) k rest
      ⟨mix ds u (locate off) (locate (Function.update off u k)) q, off q, x⟩, ()) := by
  induction rest generalizing p ds with
  | nil => rfl
  | cons l rest ih =>
    have hl : l ∈ T.kids u := by
      rw [hsplit]
      simp
    obtain ⟨hlds, hnext⟩ := (hT.labels u).of_split hsplit
    have hfree := h.free hT hc hsize hlds (hfresh l List.mem_cons_self)
    have hrun := h.run_yieldSlot hT hc hready hl hlds hfree
    obtain ⟨p', hp', heq⟩ := h.yieldSlot hT hc hl hlds hfree
    rw [heq] at hrun
    have hlt := hp'.kept.xor_lt l
      (Draws.lt_size hp' (t := l :: u) ((mem_granted hT hc _).mpr (.inl ⟨hc.owner, hl⟩)))
    rw [mix_of_mem (by simp), locate_update_cons, xor_label_cancel] at hlt
    have hrest := ih hp' (hready.run hrun) (by rw [hsplit, List.append_assoc]; rfl) hlt fun m hm =>
      hfresh m (List.mem_cons_of_mem _ hm)
    unfold Pool.moveAway at hrest ⊢
    rw [withNext_cons, List.foldl_cons, Program.moveAway, hnext, Program.run_bind_of hrun]
    dsimp only
    rw [heq]
    exact hrest

end

/-! ### A conflict is settled -/

/-- The word of an offset in range. -/
theorem word_ofOffset (e : Encoding) (hk : k < p.size) (hsize : p.size ≤ Access.maxCapacity) :
    e.Word (e.ofOffset k) := by
  have hfits := e.ofOffset_fits (k := k) (by unfold Access.maxCapacity at hsize; omega)
  cases e with
  | standard => exact hfits
  | reduced => exact Encoding.word_of_nonpos _ (by show -(k : Int) - 1 ≤ 0; omega) hfits

namespace Lays

variable (h : p.Lays c T off) (hready : p.Ready c) (hmax : c.maxTrial ≤ 2147483647)
include h hready hmax

/-- The children of the node that asks move. -/
theorem gives_moveMine (hq : T.Mem q) (hq0 : q ≠ []) (hkids : T.kids q ≠ []) (hx : x ∉ T.kids q) :
    let labels := insertLabel c.ordered x (T.kids q)
    let p' := (p.place c labels).1
    let k' := (p.place c labels).2 ^^^ (labels.headD 0).toNat
    (Program.moveMine c.rules ⟨locate off q, off q, x⟩ labels).Gives c p
      (((if labels.headD 0 = x then p'.setChild (locate off q) x else p').setBase (locate off q)
        (c.encoding.ofOffset k')).moveWith c (locate off q) (off q) k' x labels, k' ^^^ x.toNat) := by
  have hlabels := (h.sound.labels q).insertLabel hx c.ordered
  have hplace := h.draws.kept.gives_place hready.capacity_le hmax hlabels.nodup hlabels.length_le
  obtain ⟨k, hkeq, hp', hsize, -, hfresh⟩ := h.place hlabels insertLabel_ne_nil
  unfold Program.moveMine
  dsimp only
  generalize p.place c (insertLabel c.ordered x (T.kids q)) = y at *
  obtain ⟨p', e⟩ := y
  dsimp only at hkeq hp' hsize ⊢
  refine hplace.bind_run ?_ fun hrun => ?_
  · rw [capacity_moveWith, setBase, capacity_modifySlot]
    split_ifs
    · rw [setChild, capacity_modifySlot]
    · rfl
  have hlt := hp'.draws.lt_size hq
  dsimp only
  rw [hkeq, Program.run_bind_of (Program.run_when fun _ => Program.run_setChild hlt x)]
  have hready' := (hready.run hrun).run (Program.run_when (c := c) (P :=
    (insertLabel c.ordered x (T.kids q)).headD 0 = x) fun _ => Program.run_setChild hlt x)
  have hstart := hp'.joining (k := k) hq hx hq0 hkids
  have hsame : (if (insertLabel c.ordered x (T.kids q)).headD 0 = x
      then p'.setChild (locate off q) x else p').size = p'.size := by
    split_ifs <;> rfl
  have hbase := Program.run_setBase (c := c) (hsame ▸ hlt)
    (word_ofOffset c.encoding hsize ((hready.run hrun).size_le hp'.draws.kept))
  rw [← Outline.kids_graft_self] at hready' hstart hsame hbase hfresh ⊢
  refine (Program.run_bind_of hbase).trans ?_
  refine (Program.run_bind_of (hstart.run_moveWith h.sound hq hx (hready'.run hbase)
    (List.nil_append _).symm hq0 (hsize.trans_eq hsame.symm) hfresh)).trans rfl

/-- The children of the owner move. -/
theorem gives_moveTheirs (hc : Contest T off q x u y) :
    let p' := (p.place c (T.kids u)).1
    let k' := (p.place c (T.kids u)).2 ^^^ ((T.kids u).headD 0).toNat
    (Program.moveTheirs c.rules ⟨locate off q, off q, x⟩ (locate off u) (off u) (T.kids u)).Gives c p
      ((p'.setBase (locate off u) (c.encoding.ofOffset k')).moveAway c (locate off u) (off u) k'
        (T.kids u) ⟨locate off q, off q, x⟩, off q ^^^ x.toNat) := by
  have hlabels := h.sound.labels u
  have hplace := h.draws.kept.gives_place hready.capacity_le hmax hlabels.nodup hlabels.length_le
  obtain ⟨k, hkeq, hp', hsize, -, hfresh⟩ := h.place hlabels (List.ne_nil_of_mem hc.held)
  unfold Program.moveTheirs
  dsimp only
  generalize p.place c (T.kids u) = y at *
  obtain ⟨p', e⟩ := y
  dsimp only at hkeq hp' hsize ⊢
  refine hplace.bind_run ?_ fun hrun => ?_
  · rw [capacity_moveAway, setBase, capacity_modifySlot]
  have hbase := Program.run_setBase (c := c) (hp'.draws.lt_size hc.owner)
    (word_ofOffset c.encoding hsize ((hready.run hrun).size_le hp'.draws.kept))
  have hstart := hp'.yielding hc (k := k)
  have hmove := hstart.run_moveAway h.sound hc ((hready.run hrun).run hbase)
    (List.nil_append _).symm hsize hfresh
  rw [mix_nil] at hmove
  dsimp only
  rw [hkeq]
  exact (Program.run_bind_of hbase).trans ((Program.run_bind_of hmove).trans rfl)

/-- **A conflict over a slot is settled** without a fault, unless the arrays would get too large. -/
theorem gives_relocate (hq : T.Mem q) (hq0 : q ≠ []) (hkids : T.kids q ≠ []) (hx : x ∉ T.kids q)
    (hcheck : 0 ≤ (p.slot (off q ^^^ x.toNat)).check) :
    (Program.relocate c.rules ⟨locate off q, off q, x⟩).Gives c p
      (p.relocate c ⟨locate off q, off q, x⟩) := by
  obtain ⟨u, y, hc, howner⟩ := h.contest hq hq0 hkids hx hcheck
  have hkidsu : T.kids u ≠ [] := List.ne_nil_of_mem hc.held
  have hrunChain : ∀ {t}, T.Mem t → t ≠ [] → T.kids t ≠ [] →
      (Program.chain (locate off t) (off t)).run c p = some (p, T.kids t) := by
    intro t ht ht0 hk
    have hchain : T.chain t = T.kids t := if_neg ht0
    have hrun := (h.links_chain ht).run_chain (c := c) (h.sound.isLabels_chain t) (hchain ▸ hk)
      (h.xor_lt ht (.inr hk)) (h.draws.lt_size ht) (h.child_eq ht)
    rwa [h.chain_eq ht (hchain ▸ hk), hchain] at hrun
  have hmine := h.chain_eq hq (by rwa [Outline.chain, if_neg hq0])
  have htheirs := h.chain_eq hc.owner (by rwa [Outline.chain, if_neg hc.owner_ne])
  rw [Outline.chain, if_neg hq0] at hmine
  rw [Outline.chain, if_neg hc.owner_ne] at htheirs
  have hindex := Program.run_index (c := c) (p := p) (Int.natCast_nonneg (locate off u))
  rw [Int.toNat_natCast] at hindex
  unfold Pool.relocate Program.relocate Request.slot
  dsimp only
  rw [howner, Int.toNat_natCast, h.offsetOf_eq hc.owner (.inr hkidsu), hmine, htheirs]
  refine Program.gives_bind_of (Program.run_slot (h.xor_lt hq (.inr hkids) x)) ?_
  rw [howner]
  refine Program.gives_bind_of hindex (Program.gives_bind_of
    (h.run_offsetOf hready hc.owner (.inr hkidsu)) (Program.gives_bind_of
    (hrunChain hq hq0 hkids) (Program.gives_bind_of (hrunChain hc.owner hc.owner_ne hkidsu) ?_)))
  by_cases hfew : (T.kids q).length < (T.kids u).length
  · rw [if_pos hfew, if_pos hfew]
    exact h.gives_moveMine hready hmax hq hq0 hkids hx
  · rw [if_neg hfew, if_neg hfew]
    exact h.gives_moveTheirs hready hmax hc

end Lays

end Pool

end DoubleArrayTrie
