import Mathlib.Algebra.Group.Nat.Defs
import Mathlib.Logic.Function.Basic
import Mathlib.Logic.Relation
import Mathlib.Order.Nat

/-!
# The first-fit allocator

`FirstFit` hands out blocks of one region. A node describes a block; it stands in the region too,
and the nodes of free blocks are linked in the order of their offsets. Addresses count from the
start of the buffer.
-/

namespace KimixNative.Core.Pool

abbrev Addr := Nat

structure Node where
  offset : Nat := 0
  size : Nat := 0
  next : Option Addr := none
  prev : Option Addr := none
  deriving DecidableEq

/-- `sizeof(Node)`. -/
def nodeSize : Nat := 32

structure FirstFit where
  totalSize : Nat
  node : Addr → Node
  freeHead : Option Addr

namespace FirstFit

/-- The region is one free block behind its node. -/
def initialized (totalSize : Nat) : FirstFit where
  totalSize := totalSize
  node      := Function.update (fun _ => {}) 0 { offset := nodeSize, size := totalSize - nodeSize }
  freeHead  := some 0

def write (f : FirstFit) (a : Addr) (n : Node) : FirstFit :=
  { f with node := Function.update f.node a n }

/-- A walk along the free list visits each address of the region once, unless it is cyclic. -/
def rounds (f : FirstFit) : Nat := f.totalSize + 1

/-- The free list; `none` where it is cyclic. The loops below end in the same way. -/
def nodesFrom (f : FirstFit) : Nat → Option Addr → Option (List Addr)
  | _, none => some []
  | 0, some _ => none
  | fuel + 1, some a => (nodesFrom f fuel (f.node a).next).map (a :: ·)

def freeNodes (f : FirstFit) : Option (List Addr) := f.nodesFrom f.rounds f.freeHead

/-- The loop of `allocate`. -/
def firstFit (f : FirstFit) (size : Nat) : Nat → Option Addr → Option (Option Addr)
  | _, none => some none
  | 0, some _ => none
  | fuel + 1, some a =>
    if size ≤ (f.node a).size then some (some a) else firstFit f size fuel (f.node a).next

/-- The loop of `allocate_best_fit`. -/
def bestFit (f : FirstFit) (size : Nat) : Nat → Option Addr → Nat → Option Addr → Option (Option Addr)
  | _, best, _, none => some best
  | 0, _, _, some _ => none
  | fuel + 1, best, bestDiff, some a =>
    if size ≤ (f.node a).size ∧ (f.node a).size - size < bestDiff then
      bestFit f size fuel (some a) ((f.node a).size - size) (f.node a).next
    else bestFit f size fuel best bestDiff (f.node a).next

/-- The loop that finds where a node is inserted: `prev` and `curr`. -/
def insertionPoint (f : FirstFit) (offset : Nat) :
    Nat → Option Addr → Option Addr → Option (Option Addr × Option Addr)
  | _, prev, none => some (prev, none)
  | 0, _, some _ => none
  | fuel + 1, prev, some a =>
    if (f.node a).offset < offset then insertionPoint f offset fuel (some a) (f.node a).next
    else some (prev, some a)

def setNext (f : FirstFit) (prev next : Option Addr) : FirstFit :=
  match prev with
  | some b => f.write b { f.node b with next := next }
  | none => { f with freeHead := next }

def setPrev (f : FirstFit) (next prev : Option Addr) : FirstFit :=
  match next with
  | some c => f.write c { f.node c with prev := prev }
  | none => f

/-- A node is put between `prev` and `curr`. -/
def link (f : FirstFit) (a : Addr) (prev curr : Option Addr) : FirstFit :=
  ((f.write a { f.node a with prev := prev, next := curr }).setNext prev (some a)).setPrev curr (some a)

/-- A node is taken out of the free list. -/
def unlink (f : FirstFit) (a : Addr) : FirstFit :=
  (f.setNext (f.node a).prev (f.node a).next).setPrev (f.node a).next (f.node a).prev

/-- `split_node`; the offset of the new node is the one the code gives it. -/
def splitNode (f : FirstFit) (a : Addr) (size : Nat) : Option FirstFit :=
  let remaining := (f.node a).size - size
  let f := f.unlink a
  if remaining ≥ nodeSize + 16 then
    let b := a + (f.node a).offset + size
    let f := f.write b { offset := 0, size := remaining - nodeSize }
    (f.insertionPoint 0 f.rounds none f.freeHead).map fun r =>
      let f := f.link b r.1 r.2
      f.write a { f.node a with size := size }
  else some f

/-- The size aligned to 16. -/
def align (size : Nat) : Nat := (size + 15) % 2 ^ 64 / 16 * 16

def take (f : FirstFit) (size : Nat) : Option Addr → Option (FirstFit × Option Addr)
  | none => some (f, none)
  | some a => (f.splitNode a size).map fun f => (f, some a)

/-- `allocate`. -/
def allocate (f : FirstFit) (size : Nat) : Option (FirstFit × Option Addr) :=
  (f.firstFit (align size) f.rounds f.freeHead).bind (f.take (align size))

/-- `allocate_best_fit`. -/
def allocateBestFit (f : FirstFit) (size : Nat) : Option (FirstFit × Option Addr) :=
  (f.bestFit (align size) f.rounds none (2 ^ 64 - 1) f.freeHead).bind (f.take (align size))

def coalesce (f : FirstFit) (left right : Addr) : FirstFit :=
  if (f.node left).offset + (f.node left).size = (f.node right).offset then
    (f.write left
      { f.node left with size := (f.node left).size + nodeSize + (f.node right).size }).unlink right
  else f

/-- A node that is in the list again is joined with the one in front of it and the one behind. -/
def merge (f : FirstFit) (a : Addr) (prev curr : Option Addr) : FirstFit :=
  let f :=
    match prev with
    | some b => f.coalesce b a
    | none => f
  match curr with
  | some c => f.coalesce (prev.getD a) c
  | none => f

/-- `free`. -/
def free (f : FirstFit) (a : Addr) : Option FirstFit :=
  (f.insertionPoint (f.node a).offset f.rounds none f.freeHead).map fun r =>
    (f.link a r.1 r.2).merge a r.1 r.2

end FirstFit

/-! ## Histories of allocations -/

/-- The allocator with the live nodes and the size each was asked for. -/
structure Heap where
  pool : FirstFit
  live : List (Addr × Nat)

inductive Op
  | allocate (size : Nat)
  | allocateBestFit (size : Nat)
  | free (a : Addr)

namespace Heap

def start (totalSize : Nat) : Heap := ⟨.initialized totalSize, []⟩

def record (h : Heap) (size : Nat) : FirstFit × Option Addr → Heap
  | (f, none) => ⟨f, h.live⟩
  | (f, some a) => ⟨f, (a, size) :: h.live⟩

/-- One call; only live nodes are freed. `none` where a loop does not end. -/
def step (h : Heap) : Op → Option Heap
  | .allocate size => (h.pool.allocate size).map (h.record size)
  | .allocateBestFit size => (h.pool.allocateBestFit size).map (h.record size)
  | .free a => (h.pool.free a).map fun f => ⟨f, h.live.eraseP (·.1 == a)⟩

def Allowed (h : Heap) : Op → Prop
  | .allocate size | .allocateBestFit size => size < 2 ^ 63
  | .free a => ∃ size, (a, size) ∈ h.live

/-- Every free block that the request fits into is taken whole. -/
def TakesWhole (h : Heap) : Op → Prop
  | .allocate size | .allocateBestFit size =>
    ∀ l, h.pool.freeNodes = some l → ∀ a ∈ l, FirstFit.align size ≤ (h.pool.node a).size →
      (h.pool.node a).size < FirstFit.align size + (nodeSize + 16)
  | .free _ => True

/-- One call by a caller that keeps to the interface. -/
def Step (h h' : Heap) : Prop := ∃ op, h.Allowed op ∧ h.step op = some h'

/-- Such a call that takes a block whole. -/
def StepWhole (h h' : Heap) : Prop := ∃ op, h.Allowed op ∧ h.TakesWhole op ∧ h.step op = some h'

/-- Byte `k` of the region belongs to the block at `a`. -/
def Covers (h : Heap) (a : Addr) (k : Nat) : Prop :=
  (h.pool.node a).offset ≤ k ∧ k < (h.pool.node a).offset + (h.pool.node a).size

/-- What the allocator is for. -/
structure Sound (h : Heap) : Prop where
  inside : ∀ x ∈ h.live,
    (h.pool.node x.1).offset + (h.pool.node x.1).size ≤ h.pool.totalSize
  requested : ∀ x ∈ h.live, x.2 ≤ (h.pool.node x.1).size
  apart : h.live.Pairwise fun x y => ∀ k, ¬ (h.Covers x.1 k ∧ h.Covers y.1 k)
  free : ∃ l, h.pool.freeNodes = some l ∧
    l.Pairwise (fun a b => (h.pool.node a).offset < (h.pool.node b).offset) ∧
    (∀ x ∈ h.live, ∀ a ∈ l, ∀ k, ¬ (h.Covers x.1 k ∧ h.Covers a k)) ∧
    (h.live = [] → ∃ a, l = [a] ∧ (h.pool.node a).offset = nodeSize ∧
      (h.pool.node a).size = h.pool.totalSize - nodeSize)
  returns : ∀ op, h.Allowed op → h.TakesWhole op → (h.step op).isSome

/-! ## One block -/

/-- The whole region is free. -/
structure Free (totalSize : Nat) (h : Heap) : Prop where
  total : h.pool.totalSize = totalSize
  head : h.pool.freeHead = some 0
  node : h.pool.node 0 = { offset := nodeSize, size := totalSize - nodeSize }
  live : h.live = []

/-- The whole region is in use. -/
structure Taken (totalSize : Nat) (h : Heap) : Prop where
  total : h.pool.totalSize = totalSize
  head : h.pool.freeHead = none
  offset : (h.pool.node 0).offset = nodeSize
  size : (h.pool.node 0).size = totalSize - nodeSize
  live : ∃ size ≤ totalSize - nodeSize, h.live = [(0, size)]

variable {totalSize size : Nat} {h h' : Heap}

theorem free_start (totalSize : Nat) : Free totalSize (start totalSize) := ⟨rfl, rfl, rfl, rfl⟩

theorem le_align (hsize : size < 2 ^ 63) : size ≤ FirstFit.align size := by
  simp only [FirstFit.align]
  omega

theorem Free.freeNodes (hfree : Free totalSize h) : h.pool.freeNodes = some [0] := by
  simp [FirstFit.freeNodes, FirstFit.rounds, FirstFit.nodesFrom, hfree.head, hfree.node]

theorem Taken.freeNodes (htaken : Taken totalSize h) : h.pool.freeNodes = some [] := by
  simp [FirstFit.freeNodes, FirstFit.rounds, FirstFit.nodesFrom, htaken.head]

theorem Free.splitNode (hfree : Free totalSize h) {size : Nat}
    (hwhole : totalSize - nodeSize < size + (nodeSize + 16)) :
    h.pool.splitNode 0 size = some { h.pool with freeHead := none } := by
  have hremaining : ¬ totalSize - nodeSize - size ≥ nodeSize + 16 := by omega
  simp only [FirstFit.splitNode, FirstFit.unlink, FirstFit.setNext, FirstFit.setPrev, hfree.node,
    if_neg hremaining]

theorem Free.firstFit (hfree : Free totalSize h) (size : Nat) :
    h.pool.firstFit size h.pool.rounds h.pool.freeHead =
      some (if size ≤ totalSize - nodeSize then some 0 else none) := by
  simp only [FirstFit.rounds, hfree.head, FirstFit.firstFit, hfree.node]
  split <;> rfl

theorem Free.bestFit (hfree : Free totalSize h) (hlt : totalSize < 2 ^ 64) (size : Nat) :
    h.pool.bestFit size h.pool.rounds none (2 ^ 64 - 1) h.pool.freeHead =
      some (if size ≤ totalSize - nodeSize then some 0 else none) := by
  have hdiff : totalSize - nodeSize - size < 2 ^ 64 - 1 := by
    simp only [nodeSize]
    omega
  simp only [FirstFit.rounds, hfree.head, FirstFit.bestFit, hfree.node, hdiff, and_true]
  split <;> rfl

/-- What both allocations do with the block that they have found. -/
theorem Free.take (hfree : Free totalSize h) (hsize : size < 2 ^ 63)
    (hwhole : FirstFit.align size ≤ totalSize - nodeSize →
      totalSize - nodeSize < FirstFit.align size + (nodeSize + 16)) :
    ∃ h', (h.pool.take (FirstFit.align size)
      (if FirstFit.align size ≤ totalSize - nodeSize then some 0 else none)).map (h.record size) =
        some h' ∧ (Free totalSize h' ∨ Taken totalSize h') := by
  by_cases hfit : FirstFit.align size ≤ totalSize - nodeSize
  · rw [if_pos hfit, FirstFit.take, hfree.splitNode (hwhole hfit)]
    refine ⟨_, rfl, .inr ⟨hfree.total, rfl, congrArg Node.offset hfree.node,
      congrArg Node.size hfree.node, size, (le_align hsize).trans hfit, ?_⟩⟩
    exact congrArg _ hfree.live
  · rw [if_neg hfit]
    exact ⟨h, rfl, .inl hfree⟩

theorem Free.step (hfree : Free totalSize h) (hlt : totalSize < 2 ^ 64) {op : Op}
    (hallowed : h.Allowed op) (hwhole : h.TakesWhole op) :
    ∃ h', h.step op = some h' ∧ (Free totalSize h' ∨ Taken totalSize h') := by
  have hblock : ∀ {size : Nat}, (∀ l, h.pool.freeNodes = some l → ∀ a ∈ l,
      FirstFit.align size ≤ (h.pool.node a).size →
        (h.pool.node a).size < FirstFit.align size + (nodeSize + 16)) →
      FirstFit.align size ≤ totalSize - nodeSize →
        totalSize - nodeSize < FirstFit.align size + (nodeSize + 16) := by
    intro size hwhole
    have hzero := hwhole [0] hfree.freeNodes 0 List.mem_cons_self
    rwa [hfree.node] at hzero
  cases op with
  | allocate size =>
    rw [Heap.step, FirstFit.allocate, hfree.firstFit, Option.bind_some]
    exact hfree.take hallowed (hblock hwhole)
  | allocateBestFit size =>
    rw [Heap.step, FirstFit.allocateBestFit, hfree.bestFit hlt, Option.bind_some]
    exact hfree.take hallowed (hblock hwhole)
  | free a =>
    obtain ⟨size, hmem⟩ := hallowed
    rw [hfree.live] at hmem
    exact absurd hmem List.not_mem_nil

theorem Taken.step (htaken : Taken totalSize h) {op : Op} (hallowed : h.Allowed op) :
    ∃ h', h.step op = some h' ∧ (Free totalSize h' ∨ Taken totalSize h') := by
  cases op with
  | allocate size =>
    rw [Heap.step, FirstFit.allocate, FirstFit.rounds, htaken.head]
    exact ⟨h, rfl, .inr htaken⟩
  | allocateBestFit size =>
    rw [Heap.step, FirstFit.allocateBestFit, FirstFit.rounds, htaken.head]
    exact ⟨h, rfl, .inr htaken⟩
  | free a =>
    obtain ⟨size, hsize, hlive⟩ := htaken.live
    obtain ⟨size', hmem⟩ := hallowed
    rw [hlive] at hmem
    cases List.mem_singleton.mp hmem
    rw [Heap.step, FirstFit.free, FirstFit.rounds, htaken.head]
    refine ⟨_, rfl, .inl ⟨htaken.total, rfl, ?_, ?_⟩⟩
    · rw [← htaken.size, ← htaken.offset]
      exact Function.update_self 0 { h.pool.node 0 with next := none, prev := none } h.pool.node
    · rw [hlive]
      rfl

/-! ## Soundness -/

theorem Free.sound (hfree : Free totalSize h) (hlt : totalSize < 2 ^ 64) : h.Sound where
  inside := by
    rw [hfree.live]
    exact fun x hx => absurd hx List.not_mem_nil
  requested := by
    rw [hfree.live]
    exact fun x hx => absurd hx List.not_mem_nil
  apart := by
    rw [hfree.live]
    exact .nil
  free := by
    refine ⟨[0], hfree.freeNodes, List.pairwise_singleton _ _, ?_, fun _ => ⟨0, rfl, ?_, ?_⟩⟩
    · rw [hfree.live]
      exact fun x hx => absurd hx List.not_mem_nil
    · rw [hfree.node]
    · rw [hfree.node, hfree.total]
  returns := by
    intro op hallowed hwhole
    obtain ⟨h', hstep, -⟩ := hfree.step hlt hallowed hwhole
    rw [hstep]
    rfl

theorem Taken.sound (htaken : Taken totalSize h) (hlarge : nodeSize < totalSize) : h.Sound := by
  obtain ⟨size, hsize, hlive⟩ := htaken.live
  refine ⟨?_, ?_, ?_, ⟨[], htaken.freeNodes, .nil, ?_, ?_⟩, ?_⟩
  · intro x hx
    rw [hlive] at hx
    obtain rfl := List.mem_singleton.mp hx
    rw [htaken.offset, htaken.size, htaken.total]
    omega
  · intro x hx
    rw [hlive] at hx
    obtain rfl := List.mem_singleton.mp hx
    rw [htaken.size]
    exact hsize
  · rw [hlive]
    exact List.pairwise_singleton _ _
  · exact fun x _ a ha => absurd ha List.not_mem_nil
  · intro hnil
    rw [hlive] at hnil
    cases hnil
  · intro op hallowed _
    obtain ⟨h', hstep, -⟩ := htaken.step hallowed
    rw [hstep]
    rfl

/-- As long as every call takes a block whole, the region is either free or one live block. -/
theorem whole_run (hlt : totalSize < 2 ^ 64)
    (hrun : Relation.ReflTransGen StepWhole (start totalSize) h) :
    Free totalSize h ∨ Taken totalSize h := by
  induction hrun with
  | refl => exact .inl (free_start totalSize)
  | tail _ hstep ih =>
    obtain ⟨op, hallowed, hwhole, hstep⟩ := hstep
    rcases ih with hfree | htaken
    · obtain ⟨h', hsome, hh'⟩ := hfree.step hlt hallowed hwhole
      rwa [Option.some.inj (hstep.symm.trans hsome)]
    · obtain ⟨h', hsome, hh'⟩ := htaken.step hallowed
      rwa [Option.some.inj (hstep.symm.trans hsome)]

theorem sound_run (totalSize : Nat) (hlarge : nodeSize < totalSize) (hlt : totalSize < 2 ^ 64)
    (h : Heap) (hrun : Relation.ReflTransGen StepWhole (start totalSize) h) : h.Sound := by
  rcases whole_run hlt hrun with hfree | htaken
  · exact hfree.sound hlt
  · exact htaken.sound hlarge

theorem sound_run_allocate : ∃ h, (start 1024).step (.allocate 980) = some h ∧ h.Sound := by
  refine ⟨_, rfl, sound_run 1024 (by decide) (by decide) _ (.single ⟨.allocate 980, ?_, ?_, rfl⟩)⟩
  · exact Nat.lt_of_le_of_lt (Nat.le_of_ble_eq_true rfl) (by decide : 1024 < 2 ^ 63)
  · intro l hl a ha _
    obtain rfl : [0] = l := Option.some.inj ((free_start 1024).freeNodes.symm.trans hl)
    obtain rfl := List.mem_singleton.mp ha
    decide

/-- The first split leaves a free node that starts at the front of the region and covers the block
that has just been handed out. -/
theorem not_sound_split : ¬ ∀ totalSize, nodeSize < totalSize → totalSize < 2 ^ 64 → ∀ h,
    Relation.ReflTransGen Step (start totalSize) h → h.Sound := by
  intro h
  have hsound := h 1024 (by decide) (by decide) _ (.single ⟨.allocate 16, by simp [Allowed], rfl⟩)
  obtain ⟨l, hl, -, hapart, -⟩ := hsound.free
  obtain rfl : [48] = l := Option.some.inj hl
  refine hapart (0, 16) List.mem_cons_self 48 List.mem_cons_self 32 ⟨⟨?_, ?_⟩, ?_, ?_⟩
  · decide
  · decide
  · decide
  · decide

end Heap

end KimixNative.Core.Pool
