import DoubleArrayTrie.Proofs.Pool.Lockstep
import DoubleArrayTrie.Proofs.Pool.Searching
import DoubleArrayTrie.Proofs.Programs.Rounds
import DoubleArrayTrie.Trie.Relocate
import DoubleArrayTrie.Proofs.Programs.Slots

/-!
# Programs that find room

A search for room follows links: along a free list it comes back to the head after as many slots as
the block counts as free, along the open ring it comes to the last block after at most as many blocks
as there are in use. The programs fault if it takes longer.

* `WellKept.rounds_scanFree`, `Ahead.rounds_searchOpen`: the rounds of the searches, which end in time.
* `WellKept.gives_addBlock`: a block is put into use, as long as the arrays may grow.
* `WellKept.gives_place`: the program finds room.
-/

namespace DoubleArrayTrie

/-! ### The programs -/

namespace Program

variable {α : Type}

/-- Carries out a program for each element of a list. -/
def forEach : List α → (α → Program Unit) → Program Unit
  | [], _ => pure ()
  | a :: l, f => do
      f a
      forEach l f

/-- A loop keeps what each round keeps. -/
theorem run_forEach {c : Config} {l : List α} {f : α → Program Unit} {g : Pool → α → Pool}
    {I : Pool → Prop} (hstep : ∀ p, I p → ∀ a ∈ l, (f a).run c p = some (g p a, ()) ∧ I (g p a))
    {p : Pool} (hp : I p) : (forEach l f).run c p = some (l.foldl g p, ()) := by
  induction l generalizing p with
  | nil => rfl
  | cons a l ih =>
    obtain ⟨hrun, hkept⟩ := hstep p hp a List.mem_cons_self
    unfold forEach
    rw [run_bind_of hrun]
    exact ih (fun q hq b hb => hstep q hq b (List.mem_cons_of_mem a hb)) hkept

def threadFree (lo hi : Nat) : Program Unit :=
  forEach (List.range' lo (hi + 1 - lo)) fun i =>
    writeSlot i (.node (-((if i = lo then hi else i - 1 : Nat) : Int))
      (-((if i = hi then lo else i + 1 : Nat) : Int)))

def threadBlock (b start : Nat) : Program Unit := do
  writeBlock b .fresh
  writeBlock b (.head start)
  threadFree start (start + (blockSize - 1))

/-- Makes the slots of a block from `start` on into its free list, and puts it on the open ring. -/
def setUpBlock (start : Nat) : Program Unit := do
  threadBlock (start / blockSize) start
  let h ← head .opened
  attach (start / blockSize) .opened (h == 0)

/-- Puts the next block into use. The size is raised when the block is set up. -/
def openBlock : Program Unit := do
  let start ← size
  opening ((setUpBlock start).during fun _ => .done) (pure ())
  log (.addBlock (start / blockSize))

def addBlock : Program Nat := do
  let start ← size
  reserve
  openBlock
  pure start

def placeOne : Program Nat := do
  let h ← head .closed
  if h ≠ 0 then do
    let r ← block h
    index r.head
  else do
    let h ← head .opened
    if h ≠ 0 then do
      let r ← block h
      index r.head
    else addBlock

def allFree (k : Nat) : List UInt8 → Program Bool
  | [] => pure true
  | l :: labels => do
      let s ← slot (k ^^^ l.toNat)
      if s.check < 0 then allFree k labels else pure false

def fits (e : Nat) : List UInt8 → Program Bool
  | [] => pure true
  | label :: labels => allFree (e ^^^ label.toNat) labels

/-- Faults unless the search ends after so many slots. -/
def scanFree (labels : List UInt8) (h : Nat) : Nat → Nat → Program (Option Nat)
  | 0, _ => fault
  | n + 1, e => do
      let found ← fits e labels
      if found then pure (some e)
      else do
        let next ← nextFree e
        if next = h then pure none else scanFree labels h n next

def room? (b : Nat) (labels : List UInt8) : Program (Option Nat) := do
  let r ← block b
  if (labels.length : Int) ≤ r.free ∧ (labels.length : Int) < r.reject then do
    let h ← index r.head
    scanFree labels h r.free.toNat h
  else pure none

def lowerReject (k n : Nat) : Program Unit := do
  let x ← bound k
  when ((n : Int) < x) (writeBound k n)

def learn (maxTrial : Int) (b n : Nat) : Program Unit := do
  let r ← block b
  writeBlock b (.reject n)
  writeBlock b (.trials (r.trials + 1))
  let k ← index r.free
  lowerReject k n
  when (r.trials + 1 = maxTrial) (moveBlock b .opened .closed)

/-- Faults unless the search ends after so many blocks. -/
def searchOpen (maxTrial : Int) (labels : List UInt8) (last : Int) :
    Nat → Nat → Program (Option Nat)
  | 0, _ => fault
  | n + 1, b => do
      let found ← room? b labels
      match found with
      | some e => do
          writeBlock b (.head e)
          pure (some e)
      | none => do
          let next ← nextBlock b
          learn maxTrial b labels.length
          if b = last then pure none else searchOpen maxTrial labels last n next

/-- Room for the children with these labels, of which there must be two or more. -/
def placeFor (maxTrial : Int) (labels : List UInt8) : Program Nat := do
  require (2 ≤ labels.length ∧ labels.Nodup)
  let h ← head .opened
  if h = 0 then addBlock
  else do
    let r ← block h
    let n ← size
    let found ← searchOpen maxTrial labels r.prev (n / blockSize) h
    match found with
    | some e => pure e
    | none => do
        log (.exhausted labels.length)
        addBlock

def place (maxTrial : Int) : List UInt8 → Program Nat
  | [] | [_] => placeOne
  | labels => placeFor maxTrial labels

/-! ### The rounds of the searches -/

/-- To the next free slot, unless the labels fit at this one. -/
def scanRound (labels : List UInt8) (h e : Nat) : Program (Nat ⊕ Option Nat) := do
  let found ← fits e labels
  if found then pure (.inr (some e))
  else do
    let next ← nextFree e
    pure (if next = h then .inr none else .inl next)

/-- To the next block of the open ring, unless there is room in this one. -/
def searchRound (maxTrial : Int) (labels : List UInt8) (last : Int) (b : Nat) :
    Program (Nat ⊕ Option Nat) := do
  let found ← room? b labels
  match found with
  | some e => do
      writeBlock b (.head e)
      pure (.inr (some e))
  | none => do
      let next ← nextBlock b
      learn maxTrial b labels.length
      pure (if b = last then .inr none else .inl next)

theorem scanFree_eq_loop (labels : List UInt8) (h n e : Nat) :
    scanFree labels h n e = loop (scanRound labels h) n e := by
  refine eq_loop (fun _ => rfl) (fun n e => ?_) n e
  unfold scanRound
  rw [scanFree, bind_assoc]
  refine bind_congr fun found => ?_
  split_ifs
  · rfl
  · rw [bind_assoc]
    refine bind_congr fun next => ?_
    split_ifs <;> rfl

theorem searchOpen_eq_loop (maxTrial : Int) (labels : List UInt8) (last : Int) (n b : Nat) :
    searchOpen maxTrial labels last n b = loop (searchRound maxTrial labels last) n b := by
  refine eq_loop (fun _ => rfl) (fun n b => ?_) n b
  unfold searchRound
  rw [searchOpen, bind_assoc]
  refine bind_congr fun found => ?_
  cases found with
  | some e =>
    rw [bind_assoc]
    rfl
  | none =>
    simp only [bind_assoc]
    refine bind_congr fun next => bind_congr fun _ => ?_
    split_ifs <;> rfl

/-! ### What is done to a block -/

theorem local_forEach {l : List α} {f : α → Program Unit} (h : ∀ a, (f a).Local) :
    (forEach l f).Local := by
  induction l with
  | nil => exact .done ()
  | cons a l ih => exact (h a).bind fun _ => ih

theorem local_prevBlock (b : Nat) : (prevBlock b).Local := by
  refine .access trivial fun r => ?_
  show (index _).Local
  unfold index
  split_ifs
  · exact .done _
  · exact .fault

theorem local_writeBlock (b : Nat) (w : BlockWrite) : (writeBlock b w).Local := .access trivial .done

theorem local_splice (b h : Nat) : (splice b h).Local :=
  (local_prevBlock h).bind fun _ => (local_writeBlock ..).bind fun _ => (local_writeBlock ..).bind
    fun _ => (local_writeBlock ..).bind fun _ => local_writeBlock ..

theorem local_attach (b : Nat) (r : Ring) (isEmpty : Bool) : (attach b r isEmpty).Local := by
  refine Local.bind ?_ fun _ => .access trivial .done
  unfold linkIn
  split_ifs
  · exact (local_writeBlock ..).bind fun _ => local_writeBlock ..
  · exact .access trivial fun h => local_splice b h

/-- A block is set up before it is in use. -/
theorem local_setUpBlock (start : Nat) : (setUpBlock start).Local := by
  refine Local.bind ?_ fun _ => .access trivial fun h => local_attach ..
  exact (local_writeBlock ..).bind fun _ => (local_writeBlock ..).bind fun _ =>
    local_forEach fun _ => .access trivial .done

end Program

namespace Pool

variable {c : Config} {p q : Pool} {b d e m n : Nat} {l s : List Nat} {labels : List UInt8}

/-! ### A block is put into use -/

theorem run_threadFree {lo hi : Nat} (hlt : hi < p.size) (hle : lo ≤ hi)
    (hsize : p.size ≤ Access.maxCapacity) :
    (Program.threadFree lo hi).run c p = some (p.threadFree lo hi, ()) := by
  refine Program.run_forEach (I := fun q => q.size = p.size)
    (g := fun q i => q.setNode i (-((if i = lo then hi else i - 1 : Nat) : Int))
      (-((if i = hi then lo else i + 1 : Nat) : Int))) (fun q hq i hi' => ⟨?_, hq⟩) rfl
  rw [List.mem_range'_1] at hi'
  refine Program.run_setNode (by omega) (word_link hsize ?_) (fits_slot hsize ?_).2
  · split_ifs <;> omega
  · split_ifs <;> omega

theorem threadFree_extend (p : Pool) (lo hi : Nat) :
    p.extend.threadFree lo hi = (p.threadFree lo hi).extend :=
  List.foldl_hom extend fun _ _ => rfl

theorem attach_extend (p : Pool) (b : Nat) (isEmpty : Bool) :
    p.extend.attach b .opened isEmpty = (p.attach b .opened isEmpty).extend := by
  cases isEmpty <;> rfl

theorem WellKept.size_extend_le (hp : p.WellKept c) (hlt : p.size < p.capacity) :
    p.size + blockSize ≤ p.capacity := by
  have hdvd := hp.size_dvd
  have hdvd' := hp.capacity_dvd
  unfold blockSize at *
  omega

section

variable (hp : p.WellKept c) (hlt : p.size < p.capacity) (hcap : p.capacity ≤ Access.maxCapacity)
include hp hlt hcap

/-- The links of a pool in which one more block is about to be put on the open ring. -/
theorem WellKept.linked_threadBlock : p.threadBlock.extend.Linked := by
  have hb := hp.blocksInUse_lt hlt
  have hpos : 0 < p.blocksInUse := Nat.div_pos hp.size_pos (by decide)
  have hblock : ∀ d, p.threadBlock.extend.block d = _ := block_threadBlock hb
  have hsize : p.threadBlock.extend.size = p.size + blockSize :=
    congrArg (· + blockSize) (size_threadBlock p)
  have huse : p.threadBlock.extend.blocksInUse = p.blocksInUse + 1 := by
    rw [blocksInUse_extend, blocksInUse, size_threadBlock]
    rfl
  refine ⟨by omega, ?_, ?_, fun d => ?_, fun d => ?_, fun r => ?_⟩
  · rw [hsize]
    exact (hp.size_extend_le hlt).trans hcap
  · rw [huse]
    exact hb.trans_eq (size_blocks_threadBlock p).symm
  · have hlinks := (hp.rings.links_lt hpos d).1
    rw [huse, hblock]
    split_ifs
    · exact ⟨le_rfl, by dsimp only; omega⟩
    · omega
  · have hlinks := (hp.rings.links_lt hpos d).2
    rw [huse, hblock]
    split_ifs
    · exact ⟨le_rfl, by dsimp only; omega⟩
    · omega
  · have hhead := hp.rings.head_lt hpos r
    rw [huse, head_extend, head_threadBlock]
    omega

theorem WellKept.run_threadBlock : (Program.threadBlock p.blocksInUse p.size).run c p.extend =
    some (p.threadBlock.extend, ()) := by
  have hmax : p.extend.size ≤ Access.maxCapacity := (hp.size_extend_le hlt).trans hcap
  have hend : p.size + (blockSize - 1) < p.extend.size :=
    Nat.add_lt_add_left (Nat.sub_lt (by decide) (by decide)) _
  have hb : p.blocksInUse < p.extend.blocksInUse :=
    (Nat.lt_succ_self _).trans_eq (blocksInUse_extend p).symm
  have hstart := (fits_slot hmax (lt_of_le_of_lt (Nat.le_add_right _ _) hend)).1
  unfold Program.threadBlock Pool.threadBlock
  rw [Program.run_bind_of (Program.run_writeBlock hb (w := .fresh) trivial),
    Program.run_bind_of (Program.run_writeBlock (p := p.extend.modifyBlock _ _) hb (w := .head _)
      hstart), modifyBlock_modifyBlock, ← threadFree_extend]
  exact run_threadFree (p := p.extend.modifyBlock _ _) hend (Nat.le_add_right _ _) hmax

theorem WellKept.run_setUpBlock : (Program.setUpBlock p.size).run c p.extend =
    some ((p.threadBlock.attach p.blocksInUse .opened (p.threadBlock.openHead == 0)).extend, ()) := by
  have hlinked := hp.linked_threadBlock hlt hcap
  have huse : p.threadBlock.extend.blocksInUse = p.blocksInUse + 1 := by
    rw [blocksInUse_extend, blocksInUse, size_threadBlock]
    rfl
  unfold Program.setUpBlock
  rw [show p.size / blockSize = p.blocksInUse from rfl,
    Program.run_bind_of (hp.run_threadBlock hlt hcap), Program.run_bind_of (Program.run_head _),
    hlinked.run_attach (by omega), attach_extend]
  rfl

theorem WellKept.run_openBlock : Program.openBlock.run c p = some (p.openBlock, ()) := by
  have hbody := (Program.local_setUpBlock p.size).run_during (hp.run_setUpBlock hlt hcap)
    fun _ => .done
  have hopening : (Program.opening ((Program.setUpBlock p.size).during fun _ => .done) (pure ())).run
      c p = some ((p.threadBlock.attach p.blocksInUse .opened
        (p.threadBlock.openHead == 0)).extend, ()) := by
    rw [Program.run, if_pos (hp.size_extend_le hlt), hbody]
    rfl
  unfold Program.openBlock
  rw [Program.run_bind_of Program.run_size, Program.run_bind_of hopening]
  exact Program.run_log rfl

end

/-- **A block is put into use** without a fault, unless the arrays would get too large. -/
theorem WellKept.gives_addBlock (hp : p.WellKept c) (hcap : p.capacity ≤ Access.maxCapacity) :
    Program.addBlock.Gives c p (p.addBlock c) := by
  unfold Program.addBlock Pool.addBlock
  dsimp only
  refine Program.gives_bind_of Program.run_size ?_
  by_cases hfull : p.size = p.capacity
  · rw [if_pos hfull]
    have hstep := (step_growth hp.valid (hp.size_pos.trans hp.size_le) hp.capacity_dvd).1
    have hlt : (p.grow c).size < (p.grow c).capacity := by
      rw [size_grow, capacity_grow]
      unfold blockSize at hstep
      omega
    by_cases hroom : p.capacity + c.growth.step p.capacity ≤ Access.maxCapacity
    · have hgrown : (p.grow c).capacity ≤ Access.maxCapacity := by rwa [capacity_grow]
      have hreserve := Program.run_reserve (c := c) (p := p) fun _ => hroom
      rw [if_pos hfull] at hreserve
      refine Program.gives_bind_of hreserve
        (Program.gives_of_run ?_ (by rwa [capacity_openBlock]))
      exact (Program.run_bind_of (hp.grow.run_openBlock hlt hgrown)).trans rfl
    · refine Program.gives_of_fault ?_ (by rw [capacity_openBlock, capacity_grow]; omega)
      rw [Program.run_bind, Program.run_reserve_of_fault ⟨hfull, not_le.mp hroom⟩]
      rfl
  · rw [if_neg hfull]
    have hreserve := Program.run_reserve (c := c) (p := p) fun heq => absurd heq hfull
    rw [if_neg hfull] at hreserve
    refine Program.gives_bind_of hreserve
      (Program.gives_of_run ?_ (by rwa [capacity_openBlock]))
    exact (Program.run_bind_of (hp.run_openBlock (hp.size_le.lt_of_ne hfull) hcap)).trans rfl

/-! ### A search along a free list -/

theorem run_allFree {k : Nat} (hlt : ∀ l : UInt8, k ^^^ l.toNat < p.size) (labels : List UInt8) :
    (Program.allFree k labels).run c p =
      some (p, labels.all fun l => decide ((p.slot (k ^^^ l.toNat)).check < 0)) := by
  induction labels with
  | nil => rfl
  | cons l labels ih =>
    unfold Program.allFree
    rw [Program.run_bind_of (Program.run_slot (hlt l)), List.all_cons]
    split_ifs with hfree
    · rw [ih, decide_eq_true hfree, Bool.true_and]
    · rw [decide_eq_false hfree, Bool.false_and]
      rfl

theorem WellKept.run_fits (hp : p.WellKept c) (he : e < p.size) (labels : List UInt8) :
    (Program.fits e labels).run c p = some (p, p.fits e labels) := by
  cases labels with
  | nil => rfl
  | cons label labels => exact run_allFree (fun l => hp.xor_lt l (hp.xor_lt label he)) labels

/-- **A search along a free list** comes to its slots one after the other, up to the first one at which
the labels fit or back to the head `a`. -/
theorem WellKept.rounds_scanFree (hp : p.WellKept c) {a : Nat} {t : List Nat}
    (hchain : List.IsChain p.FreeLink (e :: (t ++ [a]))) (hthread : ∀ x ∈ e :: t, p.Threaded x)
    (ha : a ∉ t) (labels : List UInt8) : ∃ s, s <+: e :: t ∧
      Program.Rounds c (Program.scanRound labels a) p e (s.map fun x => (p, x)) p
        ((e :: t).find? fun e => p.fits e labels) := by
  induction t generalizing e with
  | nil =>
    have he := hthread e List.mem_cons_self
    have hend : p.nextFree e = a := (List.isChain_cons_cons.mp hchain).1.nextFree_eq
    refine ⟨[e], List.prefix_rfl, .last ?_⟩
    unfold Program.scanRound
    rw [Program.run_bind_of (hp.run_fits he.lt labels), List.find?_cons]
    cases p.fits e labels with
    | true => rfl
    | false =>
      rw [if_neg Bool.false_ne_true, Program.run_bind_of he.run_nextFree, if_pos hend]
      rfl
  | cons b t ih =>
    have he := hthread e List.mem_cons_self
    obtain ⟨hlink, hrest⟩ := List.isChain_cons_cons.mp hchain
    rw [List.mem_cons, not_or] at ha
    rw [List.find?_cons]
    cases hfits : p.fits e labels with
    | true =>
      refine ⟨[e], List.prefix_append [e] (b :: t), .last ?_⟩
      unfold Program.scanRound
      rw [Program.run_bind_of (hp.run_fits he.lt labels), hfits]
      rfl
    | false =>
      obtain ⟨s, hs, hrounds⟩ := ih hrest (fun x hx => hthread x (List.mem_cons_of_mem e hx)) ha.2
      refine ⟨e :: s, List.cons_prefix_cons.mpr ⟨rfl, hs⟩, .next ?_ hrounds⟩
      unfold Program.scanRound
      rw [Program.run_bind_of (hp.run_fits he.lt labels), hfits, if_neg Bool.false_ne_true,
        Program.run_bind_of he.run_nextFree, hlink.nextFree_eq, if_neg (Ne.symm ha.1)]
      rfl

/-- So it ends in time. -/
theorem WellKept.run_scanFree (hp : p.WellKept c) {a : Nat} {t : List Nat}
    (hchain : List.IsChain p.FreeLink (e :: (t ++ [a]))) (hthread : ∀ x ∈ e :: t, p.Threaded x)
    (ha : a ∉ t) (hn : t.length < n) (hm : t.length < m) :
    (Program.scanFree labels a n e).run c p = some (p, p.scanFree labels a m e) := by
  obtain ⟨s, hs, hrounds⟩ := hp.rounds_scanFree hchain hthread ha labels
  have hlen := hs.length_le
  rw [Program.scanFree_eq_loop, scanFree_of_isChain hchain ha hm]
  refine hrounds.run_loop ?_
  rw [List.length_map]
  rw [List.length_cons] at hlen
  omega

theorem WellKept.run_room? (hp : p.WellKept c) (hb : b < p.blocksInUse)
    (hsize : p.size ≤ Access.maxCapacity) (hlabels : labels ≠ []) :
    (Program.room? b labels).run c p = some (p, p.room? b labels) := by
  obtain ⟨l, hl⟩ := hp.freeLists b hb
  unfold Program.room? Pool.room?
  rw [Program.run_bind_of (Program.run_block hb)]
  dsimp only
  split_ifs with hroom
  · have hlen := List.length_pos_of_ne_nil hlabels
    have hfree := hl.free_eq
    obtain ⟨hmem, hhead⟩ := hl.exists_head (by omega)
    rw [Program.run_bind_of (Program.run_index (by omega))]
    rcases l with _ | ⟨a, t⟩
    · simp at hmem
    have ha : (p.block b).head.toNat = a := by rw [hl.head_eq a rfl, Int.toNat_natCast]
    have hle := hl.length_le
    have hpos := hp.size_pos
    have hcap := hp.size_le
    rw [List.length_cons] at hfree hle
    rw [ha]
    exact hp.run_scanFree (Circular.cons_iff.mp hl.circular) (fun x hx => hl.threaded hx hsize)
      (List.nodup_cons.mp hl.nodup).1 (by omega) (by omega)
  · rfl

/-! ### A search along the open ring -/

theorem modifyBlock_congr {f g : Block → Block} (h : f (p.block b) = g (p.block b)) :
    p.modifyBlock b f = p.modifyBlock b g := by
  have hblocks : p.blocks.modify b f = p.blocks.modify b g := by
    refine Array.ext (by simp) fun i hi _ => ?_
    rw [Array.size_modify] at hi
    simp only [Array.getElem_modify]
    split_ifs with hb
    · subst hb
      simpa [block, hi] using h
    · rfl
  unfold modifyBlock
  rw [hblocks]

theorem WellKept.run_learn (hp : p.WellKept c) (hb : p.OnOpen c b)
    (hsize : p.size ≤ Access.maxCapacity) (hmax : c.maxTrial ≤ 2147483647) (hn : n ≤ blockSize) :
    (Program.learn c.maxTrial b n).run c p = some (p.learn c b n, ()) := by
  obtain ⟨l, hl⟩ := hp.freeLists b hb.2.1
  have htrials := hp.trials b hb.2.1
  have hfree := hl.free_eq
  have hlen := hl.length_le
  have hrings := hp.rings_lowerReject b (p.block b).free.toNat n
  have hpos : 0 < p.blocksInUse := Nat.zero_lt_of_lt hb.2.1
  have hmore : (p.block b).trials ≠ c.maxTrial := by
    have hring := hb.2.2
    unfold Block.ring at hring
    split_ifs at hring with h0 h1
    exact fun htrials => h1 (.inr htrials)
  unfold blockSize at hn hlen
  have hreject : (BlockWrite.reject n).Fits := Integer.fits_two.mpr (by omega)
  have hlinked := hrings.linked (by simpa [blocksInUse] using hpos) (by simpa using hsize)
    (by simpa [blocksInUse] using hp.blocksInUse_le)
  have hopen := hrings.member hb.1 (by simpa [blocksInUse] using hb.2.1)
  rw [hb.2.2] at hopen
  unfold Program.learn Pool.learn
  rw [Program.run_bind_of (Program.run_block hb.2.1),
    Program.run_bind_of (Program.run_writeBlock hb.2.1 hreject),
    Program.run_bind_of (Program.run_writeBlock (p := p.modifyBlock b _) hb.2.1 (w := .trials _)
      (Integer.fits_four.mpr (by omega))), modifyBlock_modifyBlock,
    modifyBlock_congr (g := fun r => { r with reject := n, trials := r.trials + 1 }) rfl,
    Program.run_bind_of (Program.run_index (by omega)), Program.run_bind_of (q := lowerReject _ _ n)]
  · exact Program.run_when fun _ => hlinked.run_moveBlock hb.1 (by simpa [blocksInUse] using hb.2.1)
      hopen .closed
  · have hk : (p.block b).free.toNat < rejectCount := by unfold rejectCount; omega
    unfold Program.lowerReject
    rw [Program.run_bind_of (Program.run_bound hk)]
    exact Program.run_when fun _ => Program.run_writeBound hk (Integer.fits_two.mpr (by omega))

theorem WellKept.linked (hp : p.WellKept c) (hsize : p.size ≤ Access.maxCapacity) : p.Linked :=
  hp.rings.linked (Nat.div_pos hp.size_pos (by decide)) hsize hp.blocksInUse_le

/-- In a round a block in which room is found is entered there from then on, and one that has no room
learns. -/
theorem WellKept.run_searchRound (hp : p.WellKept c) (hb : p.OnOpen c b)
    (hsize : p.size ≤ Access.maxCapacity) (hmax : c.maxTrial ≤ 2147483647) (h2 : 2 ≤ labels.length)
    (hlen : labels.length ≤ blockSize) (last : Int) :
    (Program.searchRound c.maxTrial labels last b).run c p = some (match p.room? b labels with
      | some e => (p.modifyBlock b fun r => { r with head := e }, .inr (some e))
      | none => (p.learn c b labels.length,
          if b = last then .inr none else .inl (p.nextBlock b))) := by
  have hne : labels ≠ [] := List.ne_nil_of_length_pos (by omega)
  unfold Program.searchRound
  rw [Program.run_bind_of (hp.run_room? hb.2.1 hsize hne)]
  cases hroom : p.room? b labels with
  | some e =>
    obtain ⟨l, hl⟩ := hp.freeLists b hb.2.1
    have he := hl.free (room?_mem hl hne hroom).1
    dsimp only
    rw [Program.run_bind_of (Program.run_writeBlock hb.2.1 (w := .head e) (fits_slot hsize he.2.1).1)]
    rfl
  | none =>
    dsimp only
    rw [Program.run_bind_of ((hp.linked hsize).run_nextBlock hb.2.1),
      Program.run_bind_of (hp.run_learn hb hsize hmax hlen)]
    rfl

/-- **A search along the open ring** comes to its blocks one after the other, up to the first one that
has room or to the block `last`. The books are in order before each round. -/
theorem Ahead.rounds_searchOpen (h2 : 2 ≤ labels.length) (hlen : labels.length ≤ blockSize)
    (hmax : c.maxTrial ≤ 2147483647) {last : Nat} {t : List Nat} (h : p.Ahead c last b t)
    (hsize : p.size ≤ Access.maxCapacity) (hm : t.length < m) : ∃ s, s.map Prod.snd <+: b :: t ∧
      (∀ x ∈ s, x.1.WellKept c ∧ x.1.OnOpen c x.2 ∧ x.1.size = p.size) ∧
      Program.Rounds c (Program.searchRound c.maxTrial labels last) p b s
        (p.searchOpen c labels last m b).1 (p.searchOpen c labels last m b).2 := by
  obtain ⟨m, rfl⟩ := Nat.exists_eq_add_one.mpr (Nat.zero_lt_of_lt hm)
  induction t generalizing p b m with
  | nil =>
    have hb := h.opened b List.mem_cons_self
    have hround := h.kept.run_searchRound hb hsize hmax h2 hlen last
    refine ⟨[(p, b)], List.prefix_rfl, by simpa using ⟨h.kept, hb⟩, .last ?_⟩
    obtain rfl : b = last := h.last
    rw [hround]
    cases hroom : p.room? b labels with
    | some e => rw [searchOpen_of_some hroom m.succ_pos]
    | none =>
      rw [searchOpen_of_none hroom, if_pos rfl]
      dsimp only
      rw [if_pos rfl]
  | cons d t ih =>
    have hb := h.opened b List.mem_cons_self
    have hround := h.kept.run_searchRound hb hsize hmax h2 hlen last
    cases hroom : p.room? b labels with
    | some e =>
      rw [searchOpen_of_some hroom m.succ_pos]
      rw [hroom] at hround
      exact ⟨[(p, b)], List.prefix_append [b] (d :: t), by simpa using ⟨h.kept, hb⟩, .last hround⟩
    | none =>
      obtain ⟨hnext, hend, hahead⟩ := h.learn h2 hlen
      obtain ⟨m, rfl⟩ := Nat.exists_eq_add_one.mpr (Nat.zero_lt_of_lt (Nat.lt_of_succ_lt_succ hm))
      obtain ⟨s, hs, hkept, hrounds⟩ := ih hahead (by simpa using hsize) m (Nat.lt_of_succ_lt_succ hm)
      rw [hroom] at hround
      dsimp only at hround
      rw [if_neg hend, hnext] at hround
      rw [searchOpen_of_none hroom, if_neg hend, hnext]
      refine ⟨(p, b) :: s, List.cons_prefix_cons.mpr ⟨rfl, hs⟩, ?_, .next hround hrounds⟩
      rw [List.forall_mem_cons]
      exact ⟨⟨h.kept, hb, rfl⟩, fun x hx => by simpa using hkept x hx⟩

/-! ### There is always room -/

/-- What growth keeps of the capacity is kept, since no other write changes it. -/
theorem lockstep_of_capacity {P : Nat → Prop} (hP : ∀ n, P n → P (n + c.growth.step n)) :
    Lockstep c fun p q => p = q ∧ P p.capacity := by
  refine .of_kept ?_ (fun _ _ _ h => h) ?_ ?_ (fun _ _ h => h) (fun _ _ h => h) ?_
  · intro p i f h
    rwa [capacity_modifySlot]
  · intro p r b h
    cases r <;> exact h
  · intro p k m h
    unfold capacity
    rwa [slots_lowerReject]
  · intro p h
    rw [capacity_grow]
    exact hP _ h

/-- No write makes the arrays smaller. -/
theorem lockstep_le_capacity (c : Config) (n : Nat) :
    Lockstep c fun p q => p = q ∧ n ≤ p.capacity :=
  lockstep_of_capacity fun _ h => h.trans (Nat.le_add_right ..)

/-- The head of a block that is not full is found. -/
theorem WellKept.run_head (hp : p.WellKept c) (r : Ring) :
    (do let x ← Program.block (p.head r); Program.index x.head : Program Nat).run c p =
      some (p, (p.block (p.head r)).head.toNat) := by
  have hhead := hp.rings.head_lt (Nat.div_pos hp.size_pos (by decide)) r
  rw [Program.run_bind_of (Program.run_block hhead)]
  exact Program.run_index (hp.heads _ hhead).1

theorem run_openHead : (Program.head .opened).run c p = some (p, p.openHead) := Program.run_head .opened

theorem WellKept.gives_placeOne (hp : p.WellKept c) (hcap : p.capacity ≤ Access.maxCapacity) :
    Program.placeOne.Gives c p (p.placeOne c) := by
  have hread : (Program.head .closed).run c p = some (p, p.closedHead) := Program.run_head .closed
  unfold Program.placeOne Pool.placeOne
  refine Program.gives_bind_of hread ?_
  by_cases hclosed : p.closedHead ≠ 0
  · rw [if_pos hclosed, if_pos hclosed]
    exact Program.gives_of_run (hp.run_head .closed) hcap
  rw [if_neg hclosed, if_neg hclosed]
  refine Program.gives_bind_of run_openHead ?_
  by_cases hopen : p.openHead ≠ 0
  · rw [if_pos hopen, if_pos hopen]
    exact Program.gives_of_run (hp.run_head .opened) hcap
  · rw [if_neg hopen, if_neg hopen]
    exact hp.gives_addBlock hcap

theorem WellKept.gives_placeFor (hp : p.WellKept c) (hcap : p.capacity ≤ Access.maxCapacity)
    (hmax : c.maxTrial ≤ 2147483647) (h2 : 2 ≤ labels.length) (hlen : labels.length ≤ blockSize)
    (hlabels : labels.Nodup) :
    (Program.placeFor c.maxTrial labels).Gives c p (p.placeFor c labels) := by
  unfold Program.placeFor Pool.placeFor
  refine Program.gives_bind_of (Program.run_require ⟨h2, hlabels⟩)
    (Program.gives_bind_of run_openHead ?_)
  by_cases h0 : p.openHead = 0
  · rw [if_pos h0, if_pos h0]
    exact hp.gives_addBlock hcap
  rw [if_neg h0, if_neg h0]
  obtain ⟨t, last, -, hprev, hahead⟩ := hp.ahead h0
  obtain ⟨hlt, hbound⟩ := hahead.length_lt
  have hhead := hahead.opened _ List.mem_cons_self
  have hkept := (hp.searchOpen h2 hlen (n := p.visitBound) hhead
    (hahead.opened last (hahead.last ▸ List.getLast_mem _))).1
  obtain ⟨s, hs, -, hrounds⟩ := hahead.rounds_searchOpen h2 hlen hmax (hp.size_le.trans hcap) hbound
  have hsearch := hrounds.run_loop (n := p.blocksInUse) (by
    have hle := hs.length_le
    rw [List.length_map, List.length_cons] at hle
    omega)
  rw [← Program.searchOpen_eq_loop] at hsearch
  rw [← hprev] at hsearch hkept
  have hslots := slots_searchOpen c p labels (p.block p.openHead).prev p.visitBound p.openHead
  refine Program.gives_bind_of (Program.run_block hhead.2.1)
    (Program.gives_bind_of Program.run_size ?_)
  rw [show p.size / blockSize = p.blocksInUse from rfl]
  generalize p.searchOpen c labels _ _ _ = x at hslots hkept hsearch ⊢
  obtain ⟨q, found⟩ := x
  have hcapq : q.capacity ≤ Access.maxCapacity := (congrArg Array.size hslots).trans_le hcap
  refine Program.gives_bind_of hsearch ?_
  cases found with
  | some e => exact Program.gives_of_run rfl hcapq
  | none => exact Program.gives_bind_of (Program.run_log rfl) ((hkept.log _).gives_addBlock hcapq)

/-- **There is room** for labels that differ from each other. -/
theorem WellKept.gives_place (hp : p.WellKept c) (hcap : p.capacity ≤ Access.maxCapacity)
    (hmax : c.maxTrial ≤ 2147483647) (hlabels : labels.Nodup) (hlen : labels.length ≤ blockSize) :
    (Program.place c.maxTrial labels).Gives c p (p.place c labels) := by
  rcases labels with _ | ⟨l, _ | ⟨m, labels⟩⟩
  · exact hp.gives_placeOne hcap
  · exact hp.gives_placeOne hcap
  · exact hp.gives_placeFor hcap hmax (by simp) hlen hlabels

end Pool

end DoubleArrayTrie
