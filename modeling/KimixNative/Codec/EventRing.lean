import KimixNative.Lib.Reader
import Mathlib.Algebra.BigOperators.Group.List.Basic

/-!
# The event ring

Frames are pushed at the back and leave at the front: dropped when a push needs room, popped
in a batch, or cleared. A batch is one buffer, sized in a first loop over the queue and
filled in a second one that pops. The byte counter, the sizes and the counter of dropped
frames are 64-bit words that wrap.

The queue, and what a call is given or returns, lie in one address space, so their bytes
number fewer than `2^64`; a history consists of such calls. The last section follows the
fate of every frame that was accepted.
-/

namespace KimixNative.Codec

structure EventRing where
  frames : List Bytes := []
  capacity : BitVec 64
  bytes : BitVec 64 := 0
  dropped : BitVec 64 := 0
  deriving DecidableEq, Repr

namespace EventRing

/-- `frame.size()`. -/
def size (frame : Bytes) : BitVec 64 := BitVec.ofNat 64 frame.length

/-- The loop that drops old frames until a frame of size `need` fits: what is left of the
queue and the two counters. -/
def makeRoom (capacity need : BitVec 64) : List Bytes → BitVec 64 → BitVec 64 →
    List Bytes × BitVec 64 × BitVec 64
  | [], bytes, dropped => ([], bytes, dropped)
  | f :: rest, bytes, dropped =>
    if capacity < bytes + need then makeRoom capacity need rest (bytes - size f) (dropped + 1)
    else (f :: rest, bytes, dropped)

/-- `push`. -/
def push (r : EventRing) (frame : Bytes) : EventRing × Bool :=
  if r.capacity < size frame then (r, false)
  else
    let (frames, bytes, dropped) := makeRoom r.capacity (size frame) r.frames r.bytes r.dropped
    ({ r with frames := frames ++ [frame], bytes := bytes + size frame, dropped }, true)

/-- The sizing loop of `pop_batch`: the number of frames and the size of the buffer. -/
def measure (maxItems : BitVec 32) : List Bytes → BitVec 32 → BitVec 64 → BitVec 32 × BitVec 64
  | [], count, total => (count, total)
  | f :: rest, count, total =>
    if maxItems ≤ count then (count, total)
    else measure maxItems rest (count + 1) (total + (4 + size f))

/-- The filling loop of `pop_batch`: `packed` is what has been written. -/
def pack : Nat → EventRing → Bytes → EventRing × Bytes
  | 0, r, packed => (r, packed)
  | n + 1, r, packed =>
    match r.frames with
    | [] => (r, packed)
    | f :: rest =>
      pack n { r with frames := rest, bytes := r.bytes - size f }
        (packed ++ (leBytes 4 f.length ++ f))

/-- `pop_batch`; `none` when it writes past the end of its buffer. -/
def popBatch (r : EventRing) (maxItems : BitVec 32) : Option (EventRing × Bytes) :=
  let (count, total) := measure maxItems r.frames 0 4
  let (r, packed) := pack count.toNat r (leBytes 4 count.toNat)
  if total.toNat < packed.length then none
  else some (r, packed ++ List.replicate (total.toNat - packed.length) 0)

/-- `clear`. -/
def clear (r : EventRing) : EventRing := { r with frames := [], bytes := 0 }

/-! ## Batches -/

/-- One frame in a batch, `u32 len | bytes`. -/
def frameBytes (frame : Bytes) : Bytes := leBytes 4 frame.length ++ frame

/-- A batch, `u32 count | (u32 len | bytes)*`. -/
def batchBytes (frames : List Bytes) : Bytes :=
  leBytes 4 frames.length ++ frames.flatMap frameBytes

def readFrame : Reader Bytes := fun input => do
  let (len, input) ← Reader.field 4 input
  Reader.take len input

/-- A reader of one batch. -/
def readBatch : Reader (List Bytes) := fun input => do
  let (count, input) ← Reader.field 4 input
  Reader.times readFrame count input

/-- The bytes in a queue. -/
def queuedBytes (frames : List Bytes) : Nat := (frames.map List.length).sum

@[simp] theorem queuedBytes_nil : queuedBytes [] = 0 := rfl

@[simp] theorem queuedBytes_cons (f : Bytes) (frames : List Bytes) :
    queuedBytes (f :: frames) = f.length + queuedBytes frames := by
  simp [queuedBytes]

@[simp] theorem queuedBytes_append (frames frames' : List Bytes) :
    queuedBytes (frames ++ frames') = queuedBytes frames + queuedBytes frames' := by
  simp [queuedBytes]

theorem reads_readFrame {frame : Bytes} (h : frame.length < 2 ^ 32) :
    Reader.Reads readFrame (frameBytes frame) frame := by
  intro rest
  rw [readFrame, frameBytes, List.append_assoc, Reader.reads_field (by omega)]
  exact Reader.reads_take frame rest

variable {frames : List Bytes}

theorem reads_readBatch (few : frames.length < 2 ^ 32) (short : ∀ f ∈ frames, f.length < 2 ^ 32) :
    Reader.Reads readBatch (batchBytes frames) frames := by
  intro rest
  have hframes := Reader.reads_times (f := id) (fun f hf => reads_readFrame (short f hf)) rest
  rw [List.map_id] at hframes
  rw [readBatch, batchBytes, List.append_assoc, Reader.reads_field (by omega)]
  exact hframes

/-! ## One call -/

/-- A queue, and what a call is given or returns, are in memory together. -/
def InMemory (frames : List Bytes) (text : Bytes) : Prop :=
  queuedBytes frames + text.length < 2 ^ 64

instance (frames : List Bytes) (text : Bytes) : Decidable (InMemory frames text) :=
  inferInstanceAs (Decidable (_ < _))

/-- The counter counts the queue, within the capacity. -/
structure Counted (r : EventRing) : Prop where
  pending : r.bytes.toNat = queuedBytes r.frames
  within : r.bytes ≤ r.capacity
  short : ∀ f ∈ r.frames, f.length < 2 ^ 32

theorem toNat_size {f : Bytes} (h : f.length < 2 ^ 64) : (size f).toNat = f.length := by
  rw [size, BitVec.toNat_ofNat, Nat.mod_eq_of_lt h]

/-- Frames are dropped from the front, each is counted, and afterwards the new one fits. -/
theorem makeRoom_spec {capacity need : BitVec 64} {bytes : BitVec 64}
    (pending : bytes.toNat = queuedBytes frames) (alone : need ≤ capacity)
    (room : queuedBytes frames + need.toNat < 2 ^ 64) (dropped : BitVec 64) :
    ∃ gone kept bytes', frames = gone ++ kept ∧
      makeRoom capacity need frames bytes dropped =
        (kept, bytes', dropped + BitVec.ofNat 64 gone.length) ∧
      bytes'.toNat = queuedBytes kept ∧ queuedBytes kept + need.toNat ≤ capacity.toNat := by
  induction frames generalizing bytes dropped with
  | nil =>
    refine ⟨[], [], bytes, rfl, ?_, pending, ?_⟩
    · simp [makeRoom]
    · rw [queuedBytes_nil, Nat.zero_add]
      exact BitVec.le_def.mp alone
  | cons f rest ih =>
    rw [queuedBytes_cons] at pending room
    rw [makeRoom]
    split
    · next hfull =>
        have hsize := toNat_size (show f.length < 2 ^ 64 by omega)
        have hrest : (bytes - size f).toNat = queuedBytes rest := by
          rw [BitVec.toNat_sub, hsize]
          omega
        obtain ⟨gone, kept, bytes', rfl, hroom, hpending, hfits⟩ :=
          ih hrest (by omega) (dropped + 1)
        refine ⟨f :: gone, kept, bytes', rfl, ?_, hpending, hfits⟩
        rw [hroom, List.length_cons, Nat.add_comm gone.length, BitVec.ofNat_add, BitVec.add_assoc]
        rfl
    · next hfits =>
        refine ⟨[], f :: rest, bytes, rfl, ?_, ?_, ?_⟩
        · simp
        · rw [queuedBytes_cons]
          exact pending
        · rw [BitVec.not_lt, BitVec.le_def, BitVec.toNat_add] at hfits
          rw [queuedBytes_cons]
          omega

/-- An accepted push: some old frames go, the new one is the last. -/
theorem Counted.push {r : EventRing} (h : r.Counted) {frame : Bytes}
    (short : frame.length < 2 ^ 32) (memory : InMemory r.frames frame)
    (fits : size frame ≤ r.capacity) :
    ∃ gone kept, r.frames = gone ++ kept ∧ (r.push frame).2 = true ∧
      (r.push frame).1.frames = kept ++ [frame] ∧
      (r.push frame).1.dropped = r.dropped + BitVec.ofNat 64 gone.length ∧
      (r.push frame).1.capacity = r.capacity ∧ (r.push frame).1.Counted := by
  have hsize := toNat_size (show frame.length < 2 ^ 64 by omega)
  obtain ⟨gone, kept, bytes', hframes, hroom, hpending, hfits⟩ :=
    makeRoom_spec h.pending fits (hsize ▸ memory) r.dropped
  have hpush : r.push frame = ({ r with
      frames := kept ++ [frame], bytes := bytes' + size frame,
      dropped := r.dropped + BitVec.ofNat 64 gone.length }, true) := by
    rw [EventRing.push, if_neg (BitVec.not_lt.mpr fits), hroom]
  have hbytes : (bytes' + size frame).toNat = queuedBytes kept + frame.length := by
    have := r.capacity.isLt
    rw [BitVec.toNat_add, hpending, hsize]
    omega
  rw [hpush]
  refine ⟨gone, kept, hframes, rfl, rfl, rfl, rfl, ?_, ?_, ?_⟩
  · simpa using hbytes
  · rw [BitVec.le_def, hbytes, ← hsize]
    exact hfits
  · intro f hf
    obtain hold | hnew := List.mem_append.mp hf
    · exact h.short f (hframes ▸ List.mem_append_right gone hold)
    · exact List.mem_singleton.mp hnew ▸ short

/-- A refused push changes nothing. -/
theorem push_of_too_large {r : EventRing} {frame : Bytes} (large : r.capacity < size frame) :
    r.push frame = (r, false) := if_pos large

theorem measure_spec {maxItems : BitVec 32} {count : BitVec 32} {total : BitVec 64}
    (h : count ≤ maxItems) :
    measure maxItems frames count total =
      (count + BitVec.ofNat 32 (frames.take (maxItems.toNat - count.toNat)).length,
        total + BitVec.ofNat 64
          ((frames.take (maxItems.toNat - count.toNat)).flatMap frameBytes).length) := by
  rw [BitVec.le_def] at h
  induction frames generalizing count total with
  | nil => simp [measure]
  | cons f rest ih =>
    rw [measure]
    split
    · next hfull =>
        rw [BitVec.le_def] at hfull
        rw [show maxItems.toNat - count.toNat = 0 by omega]
        simp
    · next hroom =>
        rw [BitVec.le_def] at hroom
        have hmax := maxItems.isLt
        have hnext : (count + 1).toNat = count.toNat + 1 := by
          rw [BitVec.toNat_add, show (1 : BitVec 32).toNat = 1 from rfl]
          omega
        have hleft : maxItems.toNat - count.toNat = maxItems.toNat - (count + 1).toNat + 1 := by
          omega
        rw [ih (by omega), hleft, List.take_succ_cons, List.length_cons, List.flatMap_cons,
          List.length_append, frameBytes, List.length_append, length_leBytes, size]
        simp only [Nat.add_comm _ 1, BitVec.ofNat_add, BitVec.add_assoc, BitVec.ofNat_eq_ofNat]

theorem pack_spec {n : Nat} {r : EventRing} (h : n ≤ r.frames.length) (packed : Bytes) :
    pack n r packed =
      ({ r with
          frames := r.frames.drop n
          bytes := r.bytes - BitVec.ofNat 64 (queuedBytes (r.frames.take n)) },
        packed ++ (r.frames.take n).flatMap frameBytes) := by
  induction n generalizing r packed with
  | zero => simp [pack]
  | succ n ih =>
    rw [pack]
    cases hframes : r.frames with
    | nil =>
      rw [hframes] at h
      cases h
    | cons f rest =>
      rw [hframes, List.length_cons] at h
      simp only
      rw [ih (Nat.le_of_succ_le_succ h)]
      simp only [List.drop_succ_cons, List.take_succ_cons, queuedBytes_cons, List.flatMap_cons,
        frameBytes, List.append_assoc, BitVec.ofNat_add, size, BitVec.sub_sub]

/-- A batch: the oldest frames leave in the layout of a batch, and the buffer has its size. -/
theorem Counted.popBatch {r : EventRing} (h : r.Counted) (maxItems : BitVec 32)
    (memory : InMemory r.frames (batchBytes (r.frames.take maxItems.toNat))) :
    ∃ bytes', r.popBatch maxItems =
        some ({ r with frames := r.frames.drop maxItems.toNat, bytes := bytes' },
          batchBytes (r.frames.take maxItems.toNat)) ∧
      Counted { r with frames := r.frames.drop maxItems.toNat, bytes := bytes' } := by
  have hmax := maxItems.isLt
  have hlen : (r.frames.take maxItems.toNat).length < 2 ^ 32 :=
    (List.length_take_le _ _).trans_lt hmax
  have hmeasure : measure maxItems r.frames 0 4 =
      (BitVec.ofNat 32 (r.frames.take maxItems.toNat).length,
        BitVec.ofNat 64 (batchBytes (r.frames.take maxItems.toNat)).length) := by
    rw [measure_spec (BitVec.le_def.mpr (Nat.zero_le _))]
    simp only [BitVec.ofNat_eq_ofNat, BitVec.toNat_ofNat, Nat.zero_mod, Nat.sub_zero,
      BitVec.zero_add, batchBytes, List.length_append, length_leBytes, BitVec.ofNat_add]
  have hcount : (BitVec.ofNat 32 (r.frames.take maxItems.toNat).length).toNat =
      (r.frames.take maxItems.toNat).length := by
    rw [BitVec.toNat_ofNat, Nat.mod_eq_of_lt hlen]
  have htotal : (BitVec.ofNat 64 (batchBytes (r.frames.take maxItems.toNat)).length).toNat =
      (batchBytes (r.frames.take maxItems.toNat)).length := by
    unfold InMemory at memory
    rw [BitVec.toNat_ofNat, Nat.mod_eq_of_lt (by omega)]
  have htake : r.frames.take (r.frames.take maxItems.toNat).length =
      r.frames.take maxItems.toNat := by
    rw [List.length_take, ← List.take_eq_take_min]
  have hdrop : r.frames.drop (r.frames.take maxItems.toNat).length =
      r.frames.drop maxItems.toNat := by
    rw [List.length_take, ← List.drop_eq_drop_min]
  have hpack := pack_spec (r := r)
    (show (r.frames.take maxItems.toNat).length ≤ r.frames.length from List.length_take_le' _ _)
    (leBytes 4 (r.frames.take maxItems.toNat).length)
  rw [htake, hdrop] at hpack
  have hsplit : queuedBytes (r.frames.take maxItems.toNat) +
      queuedBytes (r.frames.drop maxItems.toNat) = queuedBytes r.frames := by
    rw [← queuedBytes_append, List.take_append_drop]
  have hpending := h.pending
  have hwithin := BitVec.le_def.mp h.within
  have hbytes : (r.bytes - BitVec.ofNat 64 (queuedBytes (r.frames.take maxItems.toNat))).toNat =
      queuedBytes (r.frames.drop maxItems.toNat) := by
    have hlt := r.bytes.isLt
    have htaken : (BitVec.ofNat 64 (queuedBytes (r.frames.take maxItems.toNat))).toNat =
        queuedBytes (r.frames.take maxItems.toNat) := by
      rw [BitVec.toNat_ofNat]
      exact Nat.mod_eq_of_lt (by omega)
    rw [BitVec.toNat_sub, htaken]
    omega
  refine ⟨_, ?_, hbytes, ?_, ?_⟩
  · rw [EventRing.popBatch, hmeasure]
    simp only [hcount, hpack, htotal]
    rw [← batchBytes, if_neg (lt_irrefl _), Nat.sub_self, List.replicate_zero, List.append_nil]
  · rw [BitVec.le_def, hbytes]
    simp only
    omega
  · intro f hf
    exact h.short f (List.mem_of_mem_drop hf)

theorem counted_clear (r : EventRing) : r.clear.Counted :=
  ⟨rfl, BitVec.le_def.mpr (Nat.zero_le _), fun _ hf => absurd hf List.not_mem_nil⟩

/-! ## Histories -/

/-- What callers have seen: the frames whose push returned true, the batches, and the frames
that were queued when `clear` was called. -/
structure History where
  accepted : List Bytes := []
  batches : List Bytes := []
  cleared : List Bytes := []
  deriving DecidableEq, Repr

/-- The rings that calls lead to, with their histories. -/
inductive Run (capacity : BitVec 64) : History → EventRing → Prop
  | fresh : Run capacity {} { capacity }
  | push {h : History} {r : EventRing} (frame : Bytes) : Run capacity h r →
      frame.length < 2 ^ 32 → InMemory r.frames frame →
      Run capacity
        { h with accepted := h.accepted ++ (if (r.push frame).2 then [frame] else []) }
        (r.push frame).1
  | popBatch {h : History} {r r' : EventRing} {packed : Bytes} (maxItems : BitVec 32) :
      Run capacity h r → InMemory r.frames (batchBytes (r.frames.take maxItems.toNat)) →
      r.popBatch maxItems = some (r', packed) →
      Run capacity { h with batches := h.batches ++ [packed] } r'
  | clear {h : History} {r : EventRing} : Run capacity h r →
      Run capacity { h with cleared := h.cleared ++ r.frames } r.clear

/-- How a frame left the queue. -/
inductive Fate
  | dropped
  | popped
  | cleared
  deriving DecidableEq, Repr

/-- The frames that left in one way. -/
def withFate (fate : Fate) (gone : List (Bytes × Fate)) : List Bytes :=
  (gone.filter fun p => p.2 = fate).map Prod.fst

theorem withFate_append (fate : Fate) (gone gone' : List (Bytes × Fate)) :
    withFate fate (gone ++ gone') = withFate fate gone ++ withFate fate gone' := by
  simp [withFate]

/-- Frames that leave in one go. -/
def leave (fate : Fate) (frames : List Bytes) : List (Bytes × Fate) := frames.map (·, fate)

@[simp] theorem map_fst_leave (fate : Fate) (frames : List Bytes) :
    (leave fate frames).map Prod.fst = frames := by
  simp [leave, Function.comp_def]

@[simp] theorem withFate_leave (fate fate' : Fate) (frames : List Bytes) :
    withFate fate (leave fate' frames) = if fate' = fate then frames else [] := by
  by_cases h : fate' = fate <;> simp [withFate, leave, h, List.filter_map, Function.comp_def]

/-- Every frame that left left in exactly one way. -/
theorem length_withFate (gone : List (Bytes × Fate)) :
    (withFate .popped gone).length + (withFate .dropped gone).length +
      (withFate .cleared gone).length = gone.length := by
  induction gone with
  | nil => rfl
  | cons p rest ih =>
    obtain ⟨f, fate⟩ := p
    simp only [withFate, List.length_map] at ih ⊢
    cases fate <;> simp <;> omega

/-- The accepted frames are those that left, in the order they left, and then the queue. The
batches, the clears and the counter tell how they left. -/
structure Ledger (h : History) (r : EventRing) (gone : List (Bytes × Fate))
    (groups : List (List Bytes)) : Prop where
  accepted : h.accepted = gone.map Prod.fst ++ r.frames
  batches : h.batches = groups.map batchBytes
  small : ∀ group ∈ groups, group.length < 2 ^ 32 ∧ ∀ f ∈ group, f.length < 2 ^ 32
  popped : groups.flatten = withFate .popped gone
  cleared : h.cleared = withFate .cleared gone
  dropped : r.dropped = BitVec.ofNat 64 (withFate .dropped gone).length

section Ledger

variable {h : History} {r : EventRing} {gone : List (Bytes × Fate)} {groups : List (List Bytes)}
  (ledger : Ledger h r gone groups)
include ledger

theorem Ledger.push {old kept : List Bytes} {frame : Bytes} {r' : EventRing}
    (queue : r.frames = old ++ kept) (queue' : r'.frames = kept ++ [frame])
    (counter : r'.dropped = r.dropped + BitVec.ofNat 64 old.length) :
    Ledger { h with accepted := h.accepted ++ [frame] } r' (gone ++ leave .dropped old) groups where
  accepted := by
    simp only [ledger.accepted, queue, queue', List.map_append, map_fst_leave, List.append_assoc]
  batches := ledger.batches
  small := ledger.small
  popped := by simp [withFate_append, ledger.popped]
  cleared := by simp [withFate_append, ledger.cleared]
  dropped := by
    simp [withFate_append, counter, ledger.dropped, BitVec.ofNat_add]

theorem Ledger.popBatch {n : Nat} {r' : EventRing} (few : n < 2 ^ 32)
    (short : ∀ f ∈ r.frames, f.length < 2 ^ 32) (queue : r'.frames = r.frames.drop n)
    (counter : r'.dropped = r.dropped) :
    Ledger { h with batches := h.batches ++ [batchBytes (r.frames.take n)] } r'
      (gone ++ leave .popped (r.frames.take n)) (groups ++ [r.frames.take n]) where
  accepted := by
    simp only [ledger.accepted, queue, List.map_append, map_fst_leave, List.append_assoc,
      List.take_append_drop]
  batches := by simp [ledger.batches]
  small := by
    intro group hgroup
    obtain hold | hnew := List.mem_append.mp hgroup
    · exact ledger.small group hold
    · obtain rfl := List.mem_singleton.mp hnew
      exact ⟨(List.length_take_le _ _).trans_lt few, fun f hf => short f (List.mem_of_mem_take hf)⟩
  popped := by simp [withFate_append, ledger.popped]
  cleared := by simp [withFate_append, ledger.cleared]
  dropped := by simp [withFate_append, counter, ledger.dropped]

theorem Ledger.clear :
    Ledger { h with cleared := h.cleared ++ r.frames } r.clear
      (gone ++ leave .cleared r.frames) groups where
  accepted := by simp [ledger.accepted, EventRing.clear]
  batches := ledger.batches
  small := ledger.small
  popped := by simp [withFate_append, ledger.popped]
  cleared := by simp [withFate_append, ledger.cleared]
  dropped := by simp [withFate_append, EventRing.clear, ledger.dropped]

end Ledger

/-- What every run keeps. -/
theorem Run.ledger {capacity : BitVec 64} {h : History} {r : EventRing} (run : Run capacity h r) :
    r.Counted ∧ r.capacity = capacity ∧ ∃ gone groups, Ledger h r gone groups := by
  induction run with
  | fresh =>
    refine ⟨⟨rfl, BitVec.le_def.mpr (Nat.zero_le _), by simp⟩, rfl, [], [], ?_⟩
    exact ⟨rfl, rfl, by simp, rfl, rfl, rfl⟩
  | @push h r frame _ short memory ih =>
    obtain ⟨hcounted, hcapacity, gone, groups, hledger⟩ := ih
    by_cases fits : size frame ≤ r.capacity
    · obtain ⟨old, kept, hqueue, haccepted, hqueue', hdropped, hsame, hnext⟩ :=
        hcounted.push short memory fits
      rw [haccepted, if_pos rfl]
      exact ⟨hnext, hsame.trans hcapacity, _, groups, hledger.push hqueue hqueue' hdropped⟩
    · rw [push_of_too_large (BitVec.not_le.mp fits)]
      simp only [Bool.false_eq_true, if_false, List.append_nil]
      exact ⟨hcounted, hcapacity, gone, groups, hledger⟩
  | @popBatch h r r' packed maxItems _ memory hpop ih =>
    obtain ⟨hcounted, hcapacity, gone, groups, hledger⟩ := ih
    obtain ⟨bytes', hbatch, hnext⟩ := hcounted.popBatch maxItems memory
    obtain ⟨rfl, rfl⟩ := Prod.mk.inj (Option.some.inj (hpop.symm.trans hbatch))
    exact ⟨hnext, hcapacity, _, _, hledger.popBatch maxItems.isLt hcounted.short rfl rfl⟩
  | @clear h r _ ih =>
    obtain ⟨hcounted, hcapacity, gone, groups, hledger⟩ := ih
    exact ⟨counted_clear r, hcapacity, _, groups, hledger.clear⟩

/-- The counter counts the queue and stays within the capacity. Every accepted frame was
popped, dropped or cleared, in the order of the pushes, or is queued; decoding the batches
one after the other gives the popped ones. No batch is written past its buffer. -/
structure Conserves (capacity : BitVec 64) (h : History) (r : EventRing) : Prop where
  pending : r.bytes.toNat = queuedBytes r.frames
  within : r.bytes ≤ capacity
  fates : ∃ gone groups, h.accepted = gone.map Prod.fst ++ r.frames ∧
    Reader.times readBatch h.batches.length h.batches.flatten = some (groups, []) ∧
    groups.flatten = withFate .popped gone ∧ h.cleared = withFate .cleared gone ∧
    r.dropped = BitVec.ofNat 64 (withFate .dropped gone).length ∧
    h.accepted.length = (withFate .popped gone).length + (withFate .dropped gone).length +
      (withFate .cleared gone).length + r.frames.length
  inBounds : ∀ maxItems : BitVec 32,
    InMemory r.frames (batchBytes (r.frames.take maxItems.toNat)) → (r.popBatch maxItems).isSome

theorem conserves_run {capacity : BitVec 64} {h : History} {r : EventRing}
    (run : Run capacity h r) : Conserves capacity h r := by
  obtain ⟨hcounted, rfl, gone, groups, hledger⟩ := run.ledger
  refine ⟨hcounted.pending, hcounted.within, ⟨gone, groups, hledger.accepted, ?_, hledger.popped,
    hledger.cleared, hledger.dropped, ?_⟩, ?_⟩
  · have hread := Reader.reads_times (f := id)
      (fun group hgroup => reads_readBatch (hledger.small group hgroup).1
        (hledger.small group hgroup).2) []
    rw [List.append_nil, List.map_id, List.flatMap_def] at hread
    rw [hledger.batches, List.length_map]
    exact hread
  · rw [hledger.accepted, List.length_append, List.length_map, length_withFate]
  · intro maxItems memory
    obtain ⟨bytes', hbatch, -⟩ := hcounted.popBatch maxItems memory
    rw [hbatch]
    rfl

/-- A run with a refused push, a dropped frame, two batches and a clear. -/
theorem conserves_run_dropping :
    let h : History := ⟨[[1, 2, 3], [4, 5, 6, 7], [8, 9], [], [1]],
      [batchBytes [[4, 5, 6, 7]], batchBytes [[8, 9], []]], [[1]]⟩
    let r : EventRing := { capacity := 8, dropped := 1 }
    Run 8 h r ∧ Conserves 8 h r := by
  intro h r
  have hpushed : Run 8 ⟨[[1, 2, 3], [4, 5, 6, 7], [8, 9], []], [], []⟩
      { capacity := 8, frames := [[4, 5, 6, 7], [8, 9], []], bytes := 6, dropped := 1 } :=
    ((((Run.fresh.push [1, 2, 3] (by decide) (by decide)).push [4, 5, 6, 7] (by decide)
      (by decide)).push [8, 9] (by decide) (by decide)).push [1, 2, 3, 4, 5, 6, 7, 8, 9]
      (by decide) (by decide)).push [] (by decide) (by decide)
  have hpopped : Run 8 ⟨[[1, 2, 3], [4, 5, 6, 7], [8, 9], []],
      [batchBytes [[4, 5, 6, 7]], batchBytes [[8, 9], []]], []⟩ { capacity := 8, dropped := 1 } :=
    (hpushed.popBatch 1 (by decide) rfl).popBatch 7 (by decide) rfl
  have run : Run 8 h r := (hpopped.push [1] (by decide) (by decide)).clear
  exact ⟨run, conserves_run run⟩

end EventRing

end KimixNative.Codec
