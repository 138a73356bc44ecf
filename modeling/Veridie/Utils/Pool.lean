/-
  File:      Veridie/Utils/Pool.lean
  Subject:   `mem::Pool` (utils/mempool.hpp): lists of blocks of ascending sizes, in which each
             block has a flag that tells whether it is taken.

  The flag is only ever read by `test_and_set`, which takes the block: a free one has to be used or
  thrown away, and one that is taken stays so.

  * `SubPool.allocate`, `SubPool.deallocate`, `SubPool.shrinkToFit`, `SubPool.resize` -- the code;
  * `SubPool.Sound` -- the blocks that are taken are those that hold an object, each its own;
  * `poolMachine` -- a pool and the objects alive in it, over everything that can happen to them;
  * `Effect` -- what each call is meant to do;
  * `pool_sound` -- every run keeps that and has those effects, as long as `Resize`, which computes
    with `int`, finds in each sub-pool a number of blocks that is not too far from the new one.
-/
import Veridie.Base
import Veridie.Lib.Machine

namespace Veridie.Utils

open Veridie.Lib

/-! ## 1. Blocks -/

/-- A node of `m_blocks`; `addr` is its address, and `taken` its flag. -/
structure Block where
  addr : Nat
  taken : Bool
  deriving DecidableEq, Repr

/-- `taken.test_and_set`: what the flag was, and the block behind it. -/
def Block.testAndSet (b : Block) : Bool × Block := (b.taken, { b with taken := true })

/-- A `Pool<S, Ss...>` without its bases; `next` is an address no node has had yet. -/
structure SubPool where
  blockSize : Nat
  blocks : List Block
  next : Nat
  deriving DecidableEq, Repr

/-- `m_blocks(block_count)`. -/
def SubPool.new (blockSize count : Nat) : SubPool :=
  ⟨blockSize, (List.range count).map fun i => Block.mk i false, count⟩

/-- The loop of `Allocate`: the first free block, which is moved to the end of the list. -/
def acquire : List Block → Option Nat × List Block
  | [] => (none, [])
  | b :: blocks =>
    let (was, b) := b.testAndSet
    if was then
      let (found, blocks) := acquire blocks
      (found, b :: blocks)
    else (some b.addr, blocks ++ [b])

/-- `taken.clear`. -/
def clearFlag (addr : Nat) (blocks : List Block) : List Block :=
  blocks.map fun b => if b.addr = addr then { b with taken := false } else b

/-- `Allocate` up to the constructor: the block the object is for, and the sub-pool behind it. -/
def SubPool.takeBlock (s : SubPool) : Nat × SubPool :=
  match acquire s.blocks with
  | (some addr, blocks) => (addr, { s with blocks := blocks })
  | (none, blocks) =>
    (s.next, { s with blocks := blocks ++ [Block.mk s.next true], next := s.next + 1 })

/-- `Allocate`; the flag is cleared again when the constructor throws. -/
def SubPool.allocate (s : SubPool) (throws : Bool) : Nat × SubPool :=
  let (addr, s) := s.takeBlock
  if throws then (addr, { s with blocks := clearFlag addr s.blocks }) else (addr, s)

/-- `Deallocate`. -/
def SubPool.deallocate (s : SubPool) (addr : Nat) : SubPool :=
  { s with blocks := clearFlag addr s.blocks }

/-- The `remove_if` of `ShrinkToFit`. -/
def removeFree : List Block → List Block
  | [] => []
  | b :: blocks =>
    let (was, b) := b.testAndSet
    if !was then removeFree blocks else b :: removeFree blocks

/-- `ShrinkToFit`. -/
def SubPool.shrinkToFit (s : SubPool) : SubPool := { s with blocks := removeFree s.blocks }

/-- `static_cast<int>` of a `size_t`. -/
def toInt (n : Nat) : Int := Int.bmod n (2 ^ 32)

/-- `extra_blocks`, as `Resize` computes it first. -/
def SubPool.extraBlocks (s : SubPool) (newCount : Nat) : Int :=
  toInt newCount - toInt s.blocks.length

/-- `emplace_front`, so many times. -/
def SubPool.grow (s : SubPool) : Nat → SubPool
  | 0 => s
  | extra + 1 => grow { s with blocks := ⟨s.next, false⟩ :: s.blocks, next := s.next + 1 } extra

/-- The `remove_if` of `Resize`, which counts `extra_blocks` up to zero. -/
def removeExtra : Int → List Block → List Block
  | _, [] => []
  | extra, b :: blocks =>
    if extra < 0 then
      let (was, b) := b.testAndSet
      if !was then removeExtra (extra + 1) blocks else b :: removeExtra extra blocks
    else b :: removeExtra extra blocks

/-- `Resize`. -/
def SubPool.resize (s : SubPool) (newCount : Nat) : SubPool :=
  if s.extraBlocks newCount < 0 then
    { s with blocks := removeExtra (s.extraBlocks newCount) s.blocks }
  else s.grow (s.extraBlocks newCount).toNat

/-- The subtraction for `extra_blocks` leaves the range of `int`. -/
def SubPool.Overflows (s : SubPool) (newCount : Nat) : Prop :=
  s.extraBlocks newCount < -2 ^ 31 ∨ 2 ^ 31 ≤ s.extraBlocks newCount

instance (s : SubPool) (newCount : Nat) : Decidable (s.Overflows newCount) :=
  inferInstanceAs (Decidable (_ ∨ _))

/-! ## 2. Pools and objects -/

/-- An object: the sub-pool and the block that it lies in, and its size. -/
structure Object where
  sub : Nat
  addr : Nat
  size : Nat
  deriving DecidableEq, Repr

/-- A pool, by ascending sizes, and the objects that are alive in it. -/
structure Pool where
  subs : List SubPool
  live : List Object

/-- `SuitablePool`: the first sub-pool whose blocks are large enough; none does not compile. -/
def suitablePool : List SubPool → Nat → Option Nat
  | [], _ => none
  | s :: subs, size => if size ≤ s.blockSize then some 0 else (suitablePool subs size).map (· + 1)

/-- `GetBlockCount`. -/
def getBlockCount : List SubPool → Nat
  | [] => 0
  | s :: subs => getBlockCount subs + s.blocks.length

/-- `GetSize`. -/
def getSize : List SubPool → Nat
  | [] => 0
  | s :: subs => getSize subs + s.blocks.length * s.blockSize

/-- What can happen to a pool. `make` is `MakeUnique` and `MakeShared`, for an object of a size,
    whose constructor may throw; `release` is the death of the last pointer to an object. -/
inductive PoolInput where
  | make (size : Nat) (throws : Bool)
  | release (k : Nat)
  | shrinkToFit
  | resize (newCount : Nat)

/-- What a call does besides: an object made, a constructor that threw with the sub-pool and the
    block it was given, undefined behaviour. -/
inductive PoolOut where
  | made (o : Object)
  | threw (sub addr : Nat)
  | undefined
  deriving DecidableEq

/-- The pool over everything that can happen to it. -/
def poolMachine : Machine Pool PoolInput PoolOut where
  step p i :=
    match i with
    | .make size throws =>
      match suitablePool p.subs size with
      | none => (p, [])
      | some i =>
        match p.subs[i]? with
        | none => (p, [])
        | some s =>
          let (addr, s) := s.allocate throws
          if throws then ({ p with subs := p.subs.set i s }, [.threw i addr])
          else (⟨p.subs.set i s, p.live ++ [⟨i, addr, size⟩]⟩, [.made ⟨i, addr, size⟩])
    | .release k =>
      match p.live[k]? with
      | none => (p, [])
      | some o => (⟨p.subs.modify o.sub (·.deallocate o.addr), p.live.eraseIdx k⟩, [])
    | .shrinkToFit => ({ p with subs := p.subs.map SubPool.shrinkToFit }, [])
    | .resize newCount =>
      ({ p with subs := p.subs.map (·.resize newCount) },
        if ∃ s ∈ p.subs, s.Overflows newCount then [.undefined] else [])

/-- The constructor. -/
def Pool.new (sizes : List Nat) (count : Nat) : Pool :=
  ⟨sizes.map fun size => SubPool.new size count, []⟩

/-! ## 3. One sub-pool -/

namespace SubPool

/-- The blocks of a sub-pool and the addresses that hold an object: every block is a node of its
    own, and it is taken exactly when it holds an object; every object has a block, which is its own. -/
structure Sound (s : SubPool) (used : List Nat) : Prop where
  nodes : (s.blocks.map Block.addr).Nodup
  fresh : ∀ b ∈ s.blocks, b.addr < s.next
  objects : used.Nodup
  taken : ∀ b ∈ s.blocks, b.taken = true ↔ b.addr ∈ used
  held : ∀ addr ∈ used, ∃ b ∈ s.blocks, b.addr = addr

section Sound

variable {s : SubPool} {used used' : List Nat}

theorem sound_new (blockSize count : Nat) : (new blockSize count).Sound [] where
  nodes := by
    show (((List.range count).map fun i => Block.mk i false).map Block.addr).Nodup
    rw [List.map_map]
    show ((List.range count).map id).Nodup
    rw [List.map_id]
    exact List.nodup_range
  fresh := by
    intro b hb
    obtain ⟨i, hi, rfl⟩ := List.mem_map.mp hb
    exact List.mem_range.mp hi
  objects := List.nodup_nil
  taken := by
    intro b hb
    obtain ⟨i, hi, rfl⟩ := List.mem_map.mp hb
    exact iff_of_false Bool.false_ne_true List.not_mem_nil
  held := fun _ h => absurd h List.not_mem_nil

/-- Only which addresses hold an object matters, not their order. -/
theorem Sound.congr (h : s.Sound used) (hmem : ∀ addr, addr ∈ used' ↔ addr ∈ used)
    (hnodup : used'.Nodup) : s.Sound used' where
  nodes := h.nodes
  fresh := h.fresh
  objects := hnodup
  taken := fun b hb => (h.taken b hb).trans (hmem b.addr).symm
  held := fun addr haddr => h.held addr ((hmem addr).mp haddr)

/-- As many blocks are taken as there are objects. -/
theorem Sound.count (h : s.Sound used) : (s.blocks.filter Block.taken).length = used.length := by
  have hnodup : ((s.blocks.filter Block.taken).map Block.addr).Nodup :=
    h.nodes.sublist (List.Sublist.map _ List.filter_sublist)
  have hmem : ∀ addr, addr ∈ (s.blocks.filter Block.taken).map Block.addr ↔ addr ∈ used := by
    intro addr
    constructor
    · intro hm
      obtain ⟨b, hb, rfl⟩ := List.mem_map.mp hm
      obtain ⟨hin, htaken⟩ := List.mem_filter.mp hb
      exact (h.taken b hin).mp htaken
    · intro hm
      obtain ⟨b, hb, rfl⟩ := h.held addr hm
      exact List.mem_map_of_mem (List.mem_filter.mpr ⟨hb, (h.taken b hb).mpr hm⟩)
  have hperm := (List.perm_ext_iff_of_nodup hnodup h.objects).mpr hmem
  have hlength := hperm.length_eq
  rwa [List.length_map] at hlength

/-! ### `Deallocate` -/

theorem mem_clearFlag {addr : Nat} {blocks : List Block} {b : Block} :
    b ∈ clearFlag addr blocks ↔ (b ∈ blocks ∧ b.addr ≠ addr) ∨
      ∃ b' ∈ blocks, b'.addr = addr ∧ b = ⟨addr, false⟩ := by
  unfold clearFlag
  rw [List.mem_map]
  constructor
  · intro hb
    obtain ⟨b', hb', rfl⟩ := hb
    by_cases he : b'.addr = addr
    · rw [if_pos he]
      exact Or.inr ⟨b', hb', he, by rw [← he]⟩
    · rw [if_neg he]
      exact Or.inl ⟨hb', he⟩
  · intro hb
    rcases hb with ⟨hb, hne⟩ | ⟨b', hb', he, rfl⟩
    · exact ⟨b, hb, if_neg hne⟩
    · exact ⟨b', hb', by rw [if_pos he, ← he]⟩

theorem map_addr_clearFlag (addr : Nat) (blocks : List Block) :
    (clearFlag addr blocks).map Block.addr = blocks.map Block.addr := by
  unfold clearFlag
  rw [List.map_map]
  refine List.map_congr_left fun b _ => ?_
  show (if b.addr = addr then { b with taken := false } else b).addr = b.addr
  split <;> rfl

/-- A block is given back. -/
theorem Sound.deallocate (h : s.Sound used) {addr : Nat}
    (hmem : ∀ a, a ∈ used' ↔ a ∈ used ∧ a ≠ addr) (hnodup : used'.Nodup) :
    (s.deallocate addr).Sound used' where
  nodes := by
    show ((clearFlag addr s.blocks).map Block.addr).Nodup
    rw [map_addr_clearFlag]
    exact h.nodes
  fresh := by
    intro b hb
    rcases mem_clearFlag.mp hb with ⟨hb, _⟩ | ⟨b', hb', rfl, rfl⟩
    · exact h.fresh b hb
    · exact h.fresh b' hb'
  objects := hnodup
  taken := by
    intro b hb
    rcases mem_clearFlag.mp hb with ⟨hb, hne⟩ | ⟨b', hb', he, rfl⟩
    · rw [h.taken b hb, hmem, and_iff_left hne]
    · exact iff_of_false Bool.false_ne_true fun hm => ((hmem addr).mp hm).2 rfl
  held := by
    intro a ha
    obtain ⟨hused, hne⟩ := (hmem a).mp ha
    obtain ⟨b, hb, rfl⟩ := h.held a hused
    exact ⟨b, mem_clearFlag.mpr (Or.inl ⟨hb, hne⟩), rfl⟩

/-! ### `Allocate` -/

/-- The loop finds the first free block and moves it to the end, or finds all of them taken. -/
theorem acquire_spec (blocks : List Block) :
    (∃ pre b post, blocks = pre ++ b :: post ∧ b.taken = false ∧
      acquire blocks = (some b.addr, pre ++ post ++ [⟨b.addr, true⟩])) ∨
    ((∀ b ∈ blocks, b.taken = true) ∧ acquire blocks = (none, blocks)) := by
  induction blocks with
  | nil => exact Or.inr ⟨fun _ hb => absurd hb List.not_mem_nil, rfl⟩
  | cons b blocks ih =>
    cases htaken : b.taken with
    | false =>
      refine Or.inl ⟨[], b, blocks, rfl, htaken, ?_⟩
      unfold acquire Block.testAndSet
      dsimp only
      rw [htaken, if_neg Bool.false_ne_true]
      rfl
    | true =>
      have hsame : ({ b with taken := true } : Block) = b := by rw [← htaken]
      have hstep : acquire (b :: blocks) = ((acquire blocks).1, b :: (acquire blocks).2) := by
        unfold acquire Block.testAndSet
        dsimp only
        rw [htaken, if_pos rfl, hsame]
        cases blocks <;> rfl
      rcases ih with ⟨pre, c, post, rfl, hc, hacquire⟩ | ⟨hall, hacquire⟩
      · refine Or.inl ⟨b :: pre, c, post, rfl, hc, ?_⟩
        rw [hstep, hacquire]
        rfl
      · refine Or.inr ⟨fun c hc => ?_, ?_⟩
        · rcases List.mem_cons.mp hc with rfl | hc
          · exact htaken
          · exact hall c hc
        · rw [hstep, hacquire]

/-- What `Allocate` does to the blocks before the object is constructed. -/
structure Acquires (s s' : SubPool) (addr : Nat) : Prop where
  blocks : ∀ b, b ∈ s'.blocks ↔ (b ∈ s.blocks ∧ b.addr ≠ addr) ∨ b = ⟨addr, true⟩
  nodes : (s'.blocks.map Block.addr).Nodup
  fresh : ∀ b ∈ s'.blocks, b.addr < s'.next
  free : ∀ b ∈ s.blocks, b.addr = addr → b.taken = false
  count : s'.blocks.length = s.blocks.length + if ∀ b ∈ s.blocks, b.taken = true then 1 else 0
  blockSize : s'.blockSize = s.blockSize

theorem takeBlock_acquires (h : s.Sound used) : s.Acquires s.takeBlock.2 s.takeBlock.1 := by
  unfold takeBlock
  rcases acquire_spec s.blocks with ⟨pre, b, post, hblocks, hfree, hacquire⟩ | ⟨hall, hacquire⟩
  · -- a free block is moved to the end
    rw [hacquire]
    dsimp only
    have hnodes := h.nodes
    rw [hblocks] at hnodes
    have hperm : List.Perm ((pre ++ post ++ [Block.mk b.addr true]).map Block.addr)
        ((pre ++ b :: post).map Block.addr) := by
      rw [List.append_assoc, List.map_append, List.map_append, List.map_append]
      exact List.Perm.append_left _ (List.perm_append_singleton _ _)
    have hapart : ∀ c, c ∈ pre ++ post → c.addr ≠ b.addr := by
      intro c hc he
      have hdup : (b :: (pre ++ post)).map Block.addr =
          b.addr :: (pre ++ post).map Block.addr := rfl
      have hnodup : ((b :: (pre ++ post)).map Block.addr).Nodup :=
        (List.Perm.map _ List.perm_middle).nodup_iff.mp hnodes
      rw [hdup, List.nodup_cons] at hnodup
      exact hnodup.1 (he ▸ List.mem_map_of_mem hc)
    have hmem : ∀ c, c ∈ pre ++ post ↔ c ∈ s.blocks ∧ c.addr ≠ b.addr := by
      intro c
      rw [hblocks, (List.perm_middle).mem_iff, List.mem_cons]
      constructor
      · exact fun hc => ⟨Or.inr hc, hapart c hc⟩
      · intro hc
        rcases hc.1 with rfl | hin
        · exact absurd rfl hc.2
        · exact hin
    refine ⟨fun c => ?_, hperm.nodup_iff.mpr hnodes, fun c hc => ?_, fun c hc he => ?_, ?_, rfl⟩
    · rw [List.mem_append, List.mem_singleton, hmem]
    · have hbin : b ∈ s.blocks := by
        rw [hblocks]
        exact List.mem_append_right _ List.mem_cons_self
      rcases List.mem_append.mp hc with hc | hc
      · exact h.fresh c ((hmem c).mp hc).1
      · rw [List.mem_singleton.mp hc]
        exact h.fresh b hbin
    · rw [hblocks, (List.perm_middle).mem_iff] at hc
      rcases List.mem_cons.mp hc with rfl | hc
      · exact hfree
      · exact absurd he (hapart c hc)
    · have hnot : ¬ ∀ c ∈ s.blocks, c.taken = true := fun hall => by
        have hb := hall b (by rw [hblocks]; exact List.mem_append_right _ List.mem_cons_self)
        exact nomatch hfree.symm.trans hb
      rw [if_neg hnot, hblocks]
      simp only [List.length_append, List.length_cons, List.length_nil]
      omega
  · -- all blocks are taken, and one more is put at the end
    rw [hacquire]
    dsimp only
    have hnew : ∀ c ∈ s.blocks, c.addr ≠ s.next := fun c hc => Nat.ne_of_lt (h.fresh c hc)
    refine ⟨fun c => ?_, ?_, fun c hc => ?_, fun c hc he => absurd he (hnew c hc), ?_, rfl⟩
    · rw [List.mem_append, List.mem_singleton]
      exact or_congr_left (and_iff_left_of_imp (hnew c)).symm
    · rw [List.map_append]
      refine List.nodup_append.mpr ⟨h.nodes, List.nodup_singleton _, fun a ha a' ha' => ?_⟩
      obtain ⟨c, hc, rfl⟩ := List.mem_map.mp ha
      rw [List.mem_singleton.mp ha']
      exact hnew c hc
    · rcases List.mem_append.mp hc with hc | hc
      · exact Nat.lt_succ_of_lt (h.fresh c hc)
      · rw [List.mem_singleton.mp hc]
        exact Nat.lt_succ_self _
    · rw [if_pos hall]
      exact List.length_append

/-- A constructor that throws gives its block back. -/
theorem allocate_true (s : SubPool) :
    s.allocate true = (s.takeBlock.1, s.takeBlock.2.deallocate s.takeBlock.1) := rfl

/-- The block of a new object holds none yet. -/
theorem Acquires.notMem {s' : SubPool} {addr : Nat} (ha : s.Acquires s' addr) (h : s.Sound used) :
    addr ∉ used := by
  intro hm
  obtain ⟨b, hb, he⟩ := h.held addr hm
  have htaken := (h.taken b hb).mpr (he ▸ hm)
  exact nomatch (ha.free b hb he).symm.trans htaken

/-- An object is made. -/
theorem Sound.takeBlock (h : s.Sound used) :
    s.takeBlock.2.Sound (used ++ [s.takeBlock.1]) := by
  have ha := takeBlock_acquires h
  have hnew := ha.notMem h
  refine ⟨ha.nodes, ha.fresh, ?_, fun b hb => ?_, fun addr haddr => ?_⟩
  · refine List.nodup_append.mpr ⟨h.objects, List.nodup_singleton _, fun a haused a' ha' => ?_⟩
    rw [List.mem_singleton.mp ha']
    exact fun he => hnew (he ▸ haused)
  · rw [List.mem_append, List.mem_singleton]
    rcases (ha.blocks b).mp hb with ⟨hb, hne⟩ | rfl
    · rw [h.taken b hb, or_iff_left hne]
    · exact iff_of_true rfl (Or.inr rfl)
  · rcases List.mem_append.mp haddr with haddr | haddr
    · obtain ⟨b, hb, rfl⟩ := h.held addr haddr
      have hne : b.addr ≠ s.takeBlock.1 := fun he => hnew (he ▸ haddr)
      exact ⟨b, (ha.blocks b).mpr (Or.inl ⟨hb, hne⟩), rfl⟩
    · rw [List.mem_singleton.mp haddr]
      exact ⟨_, (ha.blocks _).mpr (Or.inr rfl), rfl⟩

/-- None is made, because the constructor throws. -/
theorem Sound.allocate_throws (h : s.Sound used) : (s.allocate true).2.Sound used := by
  have hnew := (takeBlock_acquires h).notMem h
  rw [allocate_true]
  refine h.takeBlock.deallocate (fun a => ?_) h.objects
  rw [List.mem_append, List.mem_singleton]
  constructor
  · exact fun ha => ⟨Or.inl ha, fun he => hnew (he ▸ ha)⟩
  · exact fun ha => ha.1.resolve_right ha.2

/-- Its block is free. -/
theorem allocate_throws_free (h : s.Sound used) :
    ∃ b ∈ (s.allocate true).2.blocks, b.addr = (s.allocate true).1 ∧ b.taken = false := by
  have ha := takeBlock_acquires h
  rw [allocate_true]
  exact ⟨⟨s.takeBlock.1, false⟩,
    mem_clearFlag.mpr (Or.inr ⟨_, (ha.blocks _).mpr (Or.inr rfl), rfl, rfl⟩), rfl, rfl⟩

/-- A block is added when there is no free one. -/
theorem allocate_count (h : s.Sound used) (throws : Bool) :
    (s.allocate throws).2.blocks.length =
      s.blocks.length + if ∀ b ∈ s.blocks, b.taken = true then 1 else 0 := by
  have hcount := (takeBlock_acquires h).count
  cases throws with
  | false => exact hcount
  | true =>
    rw [allocate_true]
    show (clearFlag _ s.takeBlock.2.blocks).length = _
    unfold clearFlag
    rw [List.length_map, hcount]

theorem allocate_blockSize (h : s.Sound used) (throws : Bool) :
    (s.allocate throws).2.blockSize = s.blockSize := by
  have hsize := (takeBlock_acquires h).blockSize
  cases throws with
  | false => exact hsize
  | true =>
    rw [allocate_true]
    exact hsize

/-! ### `ShrinkToFit` -/

/-- `test_and_set` leaves a block that is taken as it is. -/
theorem set_taken {b : Block} (h : b.taken = true) : ({ b with taken := true } : Block) = b := by
  rw [← h]

theorem removeFree_eq (blocks : List Block) : removeFree blocks = blocks.filter Block.taken := by
  induction blocks with
  | nil => rfl
  | cons b blocks ih =>
    unfold removeFree Block.testAndSet
    dsimp only
    rw [ih]
    by_cases htaken : b.taken = true
    · rw [List.filter_cons_of_pos htaken, set_taken htaken, htaken]
      rfl
    · rw [List.filter_cons_of_neg htaken, Bool.eq_false_iff.mpr htaken]
      rfl

/-- Some blocks are removed, none of which holds an object. -/
theorem Sound.remove (h : s.Sound used) {blocks : List Block} (hsub : blocks.Sublist s.blocks)
    (hkept : ∀ b ∈ s.blocks, b.taken = true → b ∈ blocks) :
    Sound { s with blocks := blocks } used where
  nodes := h.nodes.sublist (hsub.map _)
  fresh := fun b hb => h.fresh b (hsub.subset hb)
  objects := h.objects
  taken := fun b hb => h.taken b (hsub.subset hb)
  held := by
    intro addr haddr
    obtain ⟨b, hb, rfl⟩ := h.held addr haddr
    exact ⟨b, hkept b hb ((h.taken b hb).mpr haddr), rfl⟩

theorem Sound.shrinkToFit (h : s.Sound used) : s.shrinkToFit.Sound used := by
  have hfilter := removeFree_eq s.blocks
  refine h.remove ?_ fun b hb htaken => ?_
  · rw [hfilter]
    exact List.filter_sublist
  · rw [hfilter]
    exact List.mem_filter.mpr ⟨hb, htaken⟩

/-! ### `Resize` -/

theorem Sound.grow (h : s.Sound used) (extra : Nat) : (s.grow extra).Sound used := by
  induction extra generalizing s with
  | zero => exact h
  | succ extra ih =>
    have hnew : s.next ∉ s.blocks.map Block.addr := by
      intro hm
      obtain ⟨b, hb, he⟩ := List.mem_map.mp hm
      exact Nat.lt_irrefl _ (he ▸ h.fresh b hb)
    refine ih ⟨List.nodup_cons.mpr ⟨hnew, h.nodes⟩, fun b hb => ?_, h.objects, fun b hb => ?_,
      fun addr haddr => ?_⟩
    · rcases List.mem_cons.mp hb with rfl | hb
      · exact Nat.lt_succ_self _
      · exact Nat.lt_succ_of_lt (h.fresh b hb)
    · rcases List.mem_cons.mp hb with rfl | hb
      · refine iff_of_false Bool.false_ne_true fun hm => ?_
        obtain ⟨b, hb, he⟩ := h.held _ hm
        exact hnew (List.mem_map.mpr ⟨b, hb, he⟩)
      · exact h.taken b hb
    · obtain ⟨b, hb, rfl⟩ := h.held addr haddr
      exact ⟨b, List.mem_cons_of_mem _ hb, rfl⟩

theorem grow_count (s : SubPool) (extra : Nat) :
    (s.grow extra).blocks.length = s.blocks.length + extra := by
  induction extra generalizing s with
  | zero => rfl
  | succ extra ih =>
    show (SubPool.grow _ extra).blocks.length = _
    rw [ih, List.length_cons]
    omega

theorem grow_blockSize (s : SubPool) (extra : Nat) : (s.grow extra).blockSize = s.blockSize := by
  induction extra generalizing s with
  | zero => rfl
  | succ extra ih => exact ih _

/-- Only free blocks are removed, as many as asked for as long as there are any. -/
theorem removeExtra_spec (extra : Nat) (blocks : List Block) :
    (removeExtra (-extra) blocks).Sublist blocks ∧
    (∀ b ∈ blocks, b.taken = true → b ∈ removeExtra (-extra) blocks) ∧
    (removeExtra (-extra) blocks).length + min extra (blocks.countP fun b => !b.taken) =
      blocks.length := by
  induction blocks generalizing extra with
  | nil =>
    refine ⟨List.Sublist.refl _, fun b hb _ => absurd hb List.not_mem_nil, ?_⟩
    show 0 + min extra 0 = 0
    rw [Nat.min_zero]
  | cons b blocks ih =>
    rw [removeExtra]
    cases extra with
    | zero =>
      obtain ⟨hsub, hkept, hcount⟩ := ih 0
      rw [if_neg (by omega)]
      refine ⟨hsub.cons_cons b, fun c hc htaken => ?_, ?_⟩
      · rcases List.mem_cons.mp hc with rfl | hc
        · exact List.mem_cons_self
        · exact List.mem_cons_of_mem _ (hkept c hc htaken)
      · rw [Nat.zero_min] at hcount ⊢
        rw [List.length_cons, List.length_cons, ← hcount]
    | succ extra =>
      unfold Block.testAndSet
      dsimp only
      rw [if_pos (by omega)]
      by_cases htaken : b.taken = true
      · obtain ⟨hsub, hkept, hcount⟩ := ih (extra + 1)
        rw [htaken, set_taken htaken, Bool.not_true, if_neg Bool.false_ne_true]
        refine ⟨hsub.cons_cons b, fun c hc hc' => ?_, ?_⟩
        · rcases List.mem_cons.mp hc with rfl | hc
          · exact List.mem_cons_self
          · exact List.mem_cons_of_mem _ (hkept c hc hc')
        · rw [List.countP_cons_of_neg (by rw [htaken]; exact Bool.false_ne_true), List.length_cons,
            List.length_cons, ← hcount]
          omega
      · have hfree := Bool.eq_false_iff.mpr htaken
        obtain ⟨hsub, hkept, hcount⟩ := ih extra
        have hnext : -((extra + 1 : Nat) : Int) + 1 = -extra := by omega
        rw [hfree, Bool.not_false, if_pos rfl, hnext]
        refine ⟨hsub.cons b, fun c hc hc' => ?_, ?_⟩
        · rcases List.mem_cons.mp hc with rfl | hc
          · exact absurd hc' htaken
          · exact hkept c hc hc'
        · rw [List.countP_cons_of_pos (by rw [hfree]; rfl), List.length_cons, ← hcount]
          omega

/-- The new count and the number of blocks are less than what an `int` holds apart, and `int` wraps
    both by the same multiple of 2^32; it wraps neither when both are smaller than 2^31. -/
def Moderate (s : SubPool) (newCount : Nat) : Prop :=
  (newCount + 2 ^ 31) / 2 ^ 32 = (s.blocks.length + 2 ^ 31) / 2 ^ 32 ∧
    newCount < s.blocks.length + 2 ^ 31 ∧ s.blocks.length ≤ newCount + 2 ^ 31

instance (s : SubPool) (newCount : Nat) : Decidable (s.Moderate newCount) :=
  inferInstanceAs (Decidable (_ ∧ _))

theorem moderate_of_lt {newCount : Nat} (hnew : newCount < 2 ^ 31)
    (hlength : s.blocks.length < 2 ^ 31) : s.Moderate newCount := by
  unfold Moderate
  omega

/-- `int` wraps by multiples of 2^32. -/
theorem toInt_eq (n : Nat) : toInt n = n - 2 ^ 32 * ((n + 2 ^ 31) / 2 ^ 32 : Nat) := by
  unfold toInt
  rw [Int.bmod_def]
  split <;> omega

/-- The surplus is computed right, and without overflow, just for those. -/
theorem moderate_iff {newCount : Nat} : s.Moderate newCount ↔
    s.extraBlocks newCount = (newCount : Int) - s.blocks.length ∧ ¬ s.Overflows newCount := by
  unfold Moderate Overflows extraBlocks
  rw [toInt_eq, toInt_eq]
  omega

theorem Sound.resize (h : s.Sound used) (newCount : Nat) : (s.resize newCount).Sound used := by
  unfold SubPool.resize
  split
  · rename_i hshrink
    obtain ⟨k, hk⟩ : ∃ k : Nat, s.extraBlocks newCount = -k :=
      ⟨(s.extraBlocks newCount).natAbs, by omega⟩
    obtain ⟨hsub, hkept, _⟩ := removeExtra_spec k s.blocks
    rw [hk]
    exact h.remove hsub hkept
  · exact h.grow _

theorem resize_blockSize (s : SubPool) (newCount : Nat) :
    (s.resize newCount).blockSize = s.blockSize := by
  unfold SubPool.resize
  split
  · rfl
  · exact grow_blockSize s _

/-- `Resize` leaves as many blocks as asked for, or as there are objects. -/
theorem resize_count (h : s.Sound used) {newCount : Nat} (hm : s.Moderate newCount) :
    (s.resize newCount).blocks.length = max newCount used.length := by
  have hextra := (moderate_iff.mp hm).1
  have hcount := h.count
  have hsplit : (s.blocks.filter Block.taken).length + s.blocks.countP (fun b => !b.taken) =
      s.blocks.length := by
    have hboth := List.length_eq_countP_add_countP Block.taken (l := s.blocks)
    rw [← List.countP_eq_length_filter, hboth]
    simp
  unfold SubPool.resize
  split
  · rename_i hshrink
    obtain ⟨k, hk⟩ : ∃ k : Nat, s.extraBlocks newCount = -k :=
      ⟨s.blocks.length - newCount, by omega⟩
    obtain ⟨_, _, hlength⟩ := removeExtra_spec k s.blocks
    rw [hk]
    show (removeExtra (-k) s.blocks).length = _
    omega
  · rw [grow_count]
    omega

end Sound

end SubPool

/-! ## 4. The whole pool -/

/-- The addresses in a sub-pool that hold an object. -/
def usedIn (live : List Object) (sub : Nat) : List Nat :=
  (live.filter fun o => o.sub = sub).map Object.addr

/-- The object lies in the sub-pool with the smallest blocks that are large enough for it. -/
def Suits (sizes : List Nat) (o : Object) : Prop :=
  ∃ blockSize, sizes[o.sub]? = some blockSize ∧ o.size ≤ blockSize ∧
    ∀ size ∈ sizes, o.size ≤ size → blockSize ≤ size

/-- What a pool with blocks of these sizes keeps: the objects are in the blocks that are taken, each
    in its own one and in the right sub-pool, and the two counts are sums. -/
structure Represents (sizes : List Nat) (p : Pool) : Prop where
  blockSizes : p.subs.map SubPool.blockSize = sizes
  sound : ∀ (sub : Nat) (s : SubPool), p.subs[sub]? = some s → s.Sound (usedIn p.live sub)
  suited : ∀ o ∈ p.live, Suits sizes o
  blockCount : getBlockCount p.subs = (p.subs.map fun s => s.blocks.length).sum
  byteCount : getSize p.subs = (p.subs.map fun s => s.blocks.length * s.blockSize).sum

/-- What a call is meant to do, besides what the pool keeps. -/
def Effect (p : Pool) (i : PoolInput) (r : Pool × List PoolOut) : Prop :=
  match i with
  | .make size throws => ∀ sub, suitablePool p.subs size = some sub → ∃ addr,
      (if throws then r.2 = [.threw sub addr] ∧ r.1.live = p.live ∧
          ∃ s, r.1.subs[sub]? = some s ∧ ∃ b ∈ s.blocks, b.addr = addr ∧ b.taken = false
        else r.2 = [.made ⟨sub, addr, size⟩] ∧ r.1.live = p.live ++ [⟨sub, addr, size⟩]) ∧
      ∀ (k : Nat) (s s' : SubPool), p.subs[k]? = some s → r.1.subs[k]? = some s' →
        s'.blocks.length = s.blocks.length + if k = sub ∧ ∀ b ∈ s.blocks, b.taken = true then 1 else 0
  | .release k => r.2 = [] ∧ r.1.live = p.live.eraseIdx k
  | .shrinkToFit => r.2 = [] ∧ r.1.live = p.live ∧
      ∀ (k : Nat) (s s' : SubPool), p.subs[k]? = some s → r.1.subs[k]? = some s' →
        s'.blocks = s.blocks.filter Block.taken
  | .resize newCount => r.2 = [] ∧ r.1.live = p.live ∧
      ∀ (k : Nat) (s' : SubPool), r.1.subs[k]? = some s' →
        s'.blocks.length = max newCount (usedIn p.live k).length

/-- `Resize` computes the surplus of every sub-pool within the bounds of `int`. -/
def PoolInput.Moderate (p : Pool) : PoolInput → Prop
  | .resize newCount => ∀ s ∈ p.subs, s.Moderate newCount
  | _ => True

instance (p : Pool) : DecidablePred (PoolInput.Moderate p)
  | .make _ _ | .release _ | .shrinkToFit => inferInstanceAs (Decidable True)
  | .resize newCount => inferInstanceAs (Decidable (∀ s ∈ p.subs, s.Moderate newCount))

section Pool

variable {p : Pool} {sizes : List Nat}

theorem usedIn_append (live : List Object) (o : Object) (sub : Nat) :
    usedIn (live ++ [o]) sub = usedIn live sub ++ if o.sub = sub then [o.addr] else [] := by
  unfold usedIn
  rw [List.filter_append, List.map_append]
  by_cases h : o.sub = sub
  · simp [h]
  · simp [h]

/-- One object less. -/
theorem usedIn_eraseIdx {live : List Object} {k : Nat} {o : Object} (hk : live[k]? = some o)
    (sub : Nat) : List.Perm (usedIn live sub)
      (if o.sub = sub then o.addr :: usedIn (live.eraseIdx k) sub
        else usedIn (live.eraseIdx k) sub) := by
  obtain ⟨hlt, he⟩ := List.getElem?_eq_some_iff.mp hk
  have hperm := (List.getElem_cons_eraseIdx_perm hlt).symm
  rw [he] at hperm
  have hused := (hperm.filter fun o => decide (o.sub = sub)).map Object.addr
  unfold usedIn
  by_cases h : o.sub = sub
  · rw [if_pos h]
    rwa [List.filter_cons_of_pos (by simpa using h)] at hused
  · rw [if_neg h]
    rwa [List.filter_cons_of_neg (by simpa using h)] at hused

theorem blockCount_sum (subs : List SubPool) :
    getBlockCount subs = (subs.map fun s => s.blocks.length).sum := by
  induction subs with
  | nil => rfl
  | cons s subs ih =>
    rw [getBlockCount, ih, List.map_cons, List.sum_cons, Nat.add_comm]

theorem size_sum (subs : List SubPool) :
    getSize subs = (subs.map fun s => s.blocks.length * s.blockSize).sum := by
  induction subs with
  | nil => rfl
  | cons s subs ih => rw [getSize, ih, List.map_cons, List.sum_cons, Nat.add_comm]

/-- The first sub-pool that is large enough is the smallest one. -/
theorem suitablePool_suits {subs : List SubPool} {size sub : Nat}
    (hsorted : (subs.map SubPool.blockSize).Pairwise (· < ·))
    (h : suitablePool subs size = some sub) (addr : Nat) :
    Suits (subs.map SubPool.blockSize) ⟨sub, addr, size⟩ := by
  induction subs generalizing sub with
  | nil => exact nomatch h
  | cons s subs ih =>
    rw [List.map_cons] at hsorted ⊢
    obtain ⟨hfirst, hrest⟩ := List.pairwise_cons.mp hsorted
    unfold suitablePool at h
    split at h
    · rename_i hle
      cases h
      refine ⟨s.blockSize, rfl, hle, fun size' hsize' _ => ?_⟩
      rcases List.mem_cons.mp hsize' with rfl | hsize'
      · exact Nat.le_refl _
      · exact Nat.le_of_lt (hfirst size' hsize')
    · rename_i hlt
      obtain ⟨sub', hsub', rfl⟩ := Option.map_eq_some_iff.mp h
      obtain ⟨blockSize, hget, hle, hleast⟩ := ih hrest hsub'
      refine ⟨blockSize, hget, hle, fun size' hsize' hle' => ?_⟩
      rcases List.mem_cons.mp hsize' with rfl | hsize'
      · exact absurd hle' hlt
      · exact hleast size' hsize' hle'

theorem suitablePool_lt {subs : List SubPool} {size sub : Nat}
    (h : suitablePool subs size = some sub) : ∃ s, subs[sub]? = some s := by
  induction subs generalizing sub with
  | nil => exact nomatch h
  | cons s subs ih =>
    unfold suitablePool at h
    split at h
    · cases h
      exact ⟨s, rfl⟩
    · obtain ⟨sub', hsub', rfl⟩ := Option.map_eq_some_iff.mp h
      exact ih hsub'

/-- A new pool is empty. -/
theorem represents_new (sizes : List Nat) (count : Nat) :
    Represents sizes (Pool.new sizes count) where
  blockSizes := by
    show (sizes.map fun size => SubPool.new size count).map SubPool.blockSize = sizes
    rw [List.map_map]
    exact List.map_id sizes
  sound := by
    intro sub s hs
    have hs : (sizes.map fun size => SubPool.new size count)[sub]? = some s := hs
    rw [List.getElem?_map] at hs
    obtain ⟨size, _, rfl⟩ := Option.map_eq_some_iff.mp hs
    exact SubPool.sound_new size count
  suited := fun _ ho => absurd ho List.not_mem_nil
  blockCount := blockCount_sum _
  byteCount := size_sum _

/-- Every sub-pool does something that keeps its objects and its size. -/
theorem represents_map (h : Represents sizes p) {f : SubPool → SubPool}
    (hf : ∀ s s' used, f s = s' → s.Sound used → s'.Sound used ∧ s'.blockSize = s.blockSize) :
    Represents sizes { p with subs := p.subs.map f } where
  blockSizes := by
    rw [← h.blockSizes]
    show (p.subs.map f).map SubPool.blockSize = p.subs.map SubPool.blockSize
    rw [List.map_map]
    refine List.map_congr_left fun s hs => ?_
    obtain ⟨sub, hsub⟩ := List.mem_iff_getElem?.mp hs
    exact (hf s (f s) _ rfl (h.sound sub s hsub)).2
  sound := by
    intro sub s' hs'
    have hs' : (p.subs.map f)[sub]? = some s' := hs'
    rw [List.getElem?_map] at hs'
    obtain ⟨s, hs, rfl⟩ := Option.map_eq_some_iff.mp hs'
    exact (hf s (f s) _ rfl (h.sound sub s hs)).1
  suited := h.suited
  blockCount := blockCount_sum _
  byteCount := size_sum _

/-- One sub-pool does something, and the objects in it change. -/
theorem represents_set (h : Represents sizes p) {sub : Nat} {s s' : SubPool} {live : List Object}
    (hs : p.subs[sub]? = some s) (hsize : s'.blockSize = s.blockSize)
    (hsound : s'.Sound (usedIn live sub))
    (hothers : ∀ (k : Nat) (s : SubPool), k ≠ sub → s.Sound (usedIn p.live k) →
      s.Sound (usedIn live k))
    (hsuited : ∀ o ∈ live, Suits sizes o) : Represents sizes ⟨p.subs.set sub s', live⟩ where
  blockSizes := by
    rw [← h.blockSizes]
    show (p.subs.set sub s').map SubPool.blockSize = p.subs.map SubPool.blockSize
    refine List.ext_getElem? fun k => ?_
    rw [List.getElem?_map, List.getElem?_map, List.getElem?_set]
    split
    · rename_i hk
      subst hk
      obtain ⟨hlt, _⟩ := List.getElem?_eq_some_iff.mp hs
      rw [if_pos hlt, hs]
      exact congrArg some hsize
    · rfl
  sound := by
    intro k s₁ hs₁
    have hset : (p.subs.set sub s')[k]? = some s₁ := hs₁
    obtain ⟨hlt, _⟩ := List.getElem?_eq_some_iff.mp hs
    by_cases hk : k = sub
    · subst hk
      rw [List.getElem?_set_self hlt] at hset
      cases hset
      exact hsound
    · rw [List.getElem?_set_ne (fun he => hk he.symm)] at hset
      exact hothers k s₁ hk (h.sound k s₁ hset)
  suited := hsuited
  blockCount := blockCount_sum _
  byteCount := size_sum _

/-- What a step does that gives a sub-pool a new state. -/
theorem make_step {size sub : Nat} {s : SubPool} (hsuitable : suitablePool p.subs size = some sub)
    (hs : p.subs[sub]? = some s) (throws : Bool) :
    poolMachine.step p (.make size throws) =
      if throws then
        ({ p with subs := p.subs.set sub (s.allocate throws).2 },
          [.threw sub (s.allocate throws).1])
      else (⟨p.subs.set sub (s.allocate throws).2, p.live ++ [⟨sub, (s.allocate throws).1, size⟩]⟩,
        [.made ⟨sub, (s.allocate throws).1, size⟩]) := by
  unfold poolMachine
  dsimp only
  rw [hsuitable]
  dsimp only
  rw [hs]

theorem represents_make (hsorted : sizes.Pairwise (· < ·)) (h : Represents sizes p) (size : Nat)
    (throws : Bool) : Represents sizes (poolMachine.step p (.make size throws)).1 := by
  cases hsuitable : suitablePool p.subs size with
  | none =>
    unfold poolMachine
    dsimp only
    rw [hsuitable]
    exact h
  | some sub =>
    obtain ⟨s, hs⟩ := suitablePool_lt hsuitable
    have hsound := h.sound sub s hs
    have hsize := SubPool.allocate_blockSize hsound throws
    rw [make_step hsuitable hs]
    cases throws with
    | true =>
      rw [if_pos rfl]
      exact represents_set h hs hsize hsound.allocate_throws (fun _ _ _ hk => hk) h.suited
    | false =>
      rw [if_neg Bool.false_ne_true]
      refine represents_set h hs hsize ?_ (fun k s' hk hs' => ?_) fun o ho => ?_
      · rw [usedIn_append, if_pos rfl]
        exact hsound.takeBlock
      · rw [usedIn_append, if_neg (fun he => hk he.symm), List.append_nil]
        exact hs'
      · rcases List.mem_append.mp ho with ho | ho
        · exact h.suited o ho
        · rw [List.mem_singleton.mp ho, ← h.blockSizes]
          exact suitablePool_suits (h.blockSizes.symm ▸ hsorted) hsuitable _

theorem release_step {k : Nat} {o : Object} {s : SubPool} (hk : p.live[k]? = some o)
    (hs : p.subs[o.sub]? = some s) : poolMachine.step p (.release k) =
      (⟨p.subs.set o.sub (s.deallocate o.addr), p.live.eraseIdx k⟩, []) := by
  unfold poolMachine
  dsimp only
  rw [hk]
  dsimp only
  rw [List.modify_eq_set_getElem?, hs]
  rfl

theorem represents_release (h : Represents sizes p) (k : Nat) :
    Represents sizes (poolMachine.step p (.release k)).1 := by
  cases hk : p.live[k]? with
  | none =>
    unfold poolMachine
    dsimp only
    rw [hk]
    exact h
  | some o =>
    obtain ⟨blockSize, hblockSize, _⟩ := h.suited o (List.mem_of_getElem? hk)
    rw [← h.blockSizes, List.getElem?_map] at hblockSize
    obtain ⟨s, hs, _⟩ := Option.map_eq_some_iff.mp hblockSize
    have hsound := h.sound o.sub s hs
    have hperm := usedIn_eraseIdx hk
    rw [release_step hk hs]
    refine represents_set h hs rfl ?_ (fun k' s' hk' hs' => ?_) fun o' ho' => ?_
    · have hused := hperm o.sub
      rw [if_pos rfl] at hused
      have hnodup := hused.nodup_iff.mp hsound.objects
      obtain ⟨hnotin, hrest⟩ := List.nodup_cons.mp hnodup
      refine hsound.deallocate (fun a => ?_) hrest
      rw [hused.mem_iff, List.mem_cons]
      constructor
      · exact fun ha => ⟨Or.inr ha, fun he => hnotin (he ▸ ha)⟩
      · exact fun ha => ha.1.resolve_left ha.2
    · have hused := hperm k'
      rw [if_neg (fun he => hk' he.symm)] at hused
      exact hs'.congr (fun a => hused.symm.mem_iff) (hused.nodup_iff.mp hs'.objects)
    · exact h.suited o' (List.mem_of_mem_eraseIdx ho')

theorem shrink_step : poolMachine.step p .shrinkToFit =
    ({ p with subs := p.subs.map SubPool.shrinkToFit }, []) := rfl

theorem resize_step (newCount : Nat) : poolMachine.step p (.resize newCount) =
    ({ p with subs := p.subs.map (·.resize newCount) },
      if ∃ s ∈ p.subs, s.Overflows newCount then [.undefined] else []) := by
  unfold poolMachine
  rfl

/-- Every step keeps what a pool is. -/
theorem represents_step (hsorted : sizes.Pairwise (· < ·)) (h : Represents sizes p)
    (i : PoolInput) : Represents sizes (poolMachine.step p i).1 := by
  cases i with
  | make size throws => exact represents_make hsorted h size throws
  | release k => exact represents_release h k
  | shrinkToFit =>
    rw [shrink_step]
    refine represents_map h fun s s' used he hs => ?_
    rw [← he]
    exact ⟨hs.shrinkToFit, rfl⟩
  | resize newCount =>
    rw [resize_step]
    refine represents_map h fun s s' used he hs => ?_
    have hresize : s.resize newCount = s' := he
    rw [← hresize]
    exact ⟨hs.resize newCount, s.resize_blockSize newCount⟩

theorem effect_make (h : Represents sizes p) (size : Nat) (throws : Bool) :
    Effect p (.make size throws) (poolMachine.step p (.make size throws)) := by
  intro sub hsuitable
  obtain ⟨s, hs⟩ := suitablePool_lt hsuitable
  obtain ⟨hlt, _⟩ := List.getElem?_eq_some_iff.mp hs
  have hsound := h.sound sub s hs
  have hcount : ∀ (k : Nat) (s₁ s' : SubPool), p.subs[k]? = some s₁ →
      (p.subs.set sub (s.allocate throws).2)[k]? = some s' → s'.blocks.length =
        s₁.blocks.length + if k = sub ∧ ∀ b ∈ s₁.blocks, b.taken = true then 1 else 0 := by
    intro k s₁ s' hs₁ hs'
    by_cases hk : k = sub
    · subst hk
      rw [hs] at hs₁
      cases hs₁
      rw [List.getElem?_set_self hlt] at hs'
      cases hs'
      simp only [true_and]
      exact SubPool.allocate_count hsound throws
    · rw [List.getElem?_set_ne (fun he => hk he.symm), hs₁] at hs'
      cases hs'
      rw [if_neg fun hboth => hk hboth.1]
      rfl
  rw [make_step hsuitable hs]
  refine ⟨(s.allocate throws).1, ?_⟩
  cases throws with
  | true =>
    refine ⟨⟨rfl, rfl, _, List.getElem?_set_self hlt, ?_⟩, hcount⟩
    exact SubPool.allocate_throws_free hsound
  | false => exact ⟨⟨rfl, rfl⟩, hcount⟩

theorem effect_release (h : Represents sizes p) (k : Nat) :
    Effect p (.release k) (poolMachine.step p (.release k)) := by
  cases hk : p.live[k]? with
  | none =>
    have hle := List.getElem?_eq_none_iff.mp hk
    unfold poolMachine
    dsimp only
    rw [hk]
    exact ⟨rfl, (List.eraseIdx_of_length_le hle).symm⟩
  | some o =>
    obtain ⟨blockSize, hblockSize, _⟩ := h.suited o (List.mem_of_getElem? hk)
    rw [← h.blockSizes, List.getElem?_map] at hblockSize
    obtain ⟨s, hs, _⟩ := Option.map_eq_some_iff.mp hblockSize
    rw [release_step hk hs]
    exact ⟨rfl, rfl⟩

theorem effect_shrink : Effect p .shrinkToFit (poolMachine.step p .shrinkToFit) := by
  refine ⟨rfl, rfl, fun k s s' hs hs' => ?_⟩
  have hmap : (p.subs.map SubPool.shrinkToFit)[k]? = some s' := hs'
  rw [List.getElem?_map, hs] at hmap
  cases hmap
  exact SubPool.removeFree_eq s.blocks

theorem effect_resize (h : Represents sizes p) {newCount : Nat}
    (hm : (PoolInput.resize newCount).Moderate p) :
    Effect p (.resize newCount) (poolMachine.step p (.resize newCount)) := by
  have hdefined : ¬ ∃ s ∈ p.subs, s.Overflows newCount := by
    intro hover
    obtain ⟨s, hs, hover⟩ := hover
    exact (SubPool.moderate_iff.mp (hm s hs)).2 hover
  rw [resize_step, if_neg hdefined]
  refine ⟨rfl, rfl, fun k s' hs' => ?_⟩
  have hmap : (p.subs.map (·.resize newCount))[k]? = some s' := hs'
  rw [List.getElem?_map] at hmap
  obtain ⟨s, hs, he⟩ := Option.map_eq_some_iff.mp hmap
  have hresize : s.resize newCount = s' := he
  rw [← hresize]
  exact SubPool.resize_count (h.sound k s hs) (hm s (List.mem_of_getElem? hs))

/-- Every call does what it is meant to do. -/
theorem effect_step (h : Represents sizes p) {i : PoolInput} (hm : i.Moderate p) :
    Effect p i (poolMachine.step p i) := by
  cases i with
  | make size throws => exact effect_make h size throws
  | release k => exact effect_release h k
  | shrinkToFit => exact effect_shrink
  | resize newCount => exact effect_resize h hm

end Pool

/-- **The pool**: after every run in which `Resize` has stayed within `int`, the objects lie in the
    blocks that are taken, each in its own one of the right size, and the next call does what it is
    meant to do, if it stays within `int` as well. -/
theorem pool_sound (sizes : List Nat) (count : Nat) (hsizes : sizes.Pairwise (· < ·))
    (is : List PoolInput)
    (h : poolMachine.Along PoolInput.Moderate (Pool.new sizes count) is) :
    Represents sizes (poolMachine.exec (Pool.new sizes count) is) ∧
    ∀ i : PoolInput, i.Moderate (poolMachine.exec (Pool.new sizes count) is) →
      Effect (poolMachine.exec (Pool.new sizes count) is) i
        (poolMachine.step (poolMachine.exec (Pool.new sizes count) is) i) := by
  have hrun : Represents sizes (poolMachine.exec (Pool.new sizes count) is) :=
    Machine.invariant_along (fun p i _ hp => represents_step hsizes hp i) h
      (represents_new sizes count)
  exact ⟨hrun, fun i hi => effect_step hrun hi⟩

/-- Two objects, a constructor that throws, and a pool that grows and shrinks. -/
theorem pool_sound_run : Represents [2, 8] (poolMachine.exec (Pool.new [2, 8] 1)
    [.make 2 false, .make 5 true, .make 1 false, .release 0, .resize 3, .shrinkToFit]) :=
  (pool_sound [2, 8] 1 (by decide)
    [.make 2 false, .make 5 true, .make 1 false, .release 0, .resize 3, .shrinkToFit]
    ⟨trivial, trivial, trivial, trivial, by decide +kernel, trivial, trivial⟩).1

/-- Asked for 2^32 blocks, a pool with five of them has none left. -/
theorem pool_sound_fails : ¬ Effect (Pool.new [2] 5) (.resize 4294967296)
    (poolMachine.step (Pool.new [2] 5) (.resize 4294967296)) := by
  intro h
  obtain ⟨_, _, hcount⟩ := h
  have hempty : ((Pool.new [2] 5).subs.map (·.resize 4294967296))[0]? = some ⟨2, [], 5⟩ := by
    decide +kernel
  have hfull := hcount 0 ⟨2, [], 5⟩ hempty
  exact absurd hfull (by decide)

end Veridie.Utils
