import ZeldaOS.Machine.Ring

/-!
# The byte ring

The calls of `lib/include/ring.h` from a reset ring, with the bytes that went in and came out since the last reset.

* `ring_fifo`: the ring is a bounded queue after every run.
-/

namespace ZeldaOS

open Machine List

/-! ## The calls -/

/-- `write_ring`: nothing for a size that is not positive. -/
def writeRing (ring : RingBuffer UInt8) (buffer : ℕ → UInt8) (size : ℤ) : RingBuffer UInt8 × ℕ :=
  ring.write ((range size.toNat).map buffer)

/-- `read_ring`, with the bytes that it stores. -/
def readRing (ring : RingBuffer UInt8) (size : ℤ) : RingBuffer UInt8 × List UInt8 := ring.read size.toNat

def ringLength (ring : RingBuffer UInt8) : Int32 :=
  (.ofNat ring.rear + .ofNat ring.size - .ofNat ring.front) % .ofNat ring.size

inductive RingCall where
  | write (buffer : ℕ → UInt8) (size : ℤ)
  | read (size : ℤ)
  | enqueue (value : UInt8)
  | dequeue
  | reset

structure RingRun where
  ring : RingBuffer UInt8
  accepted : List UInt8
  taken : List UInt8

namespace RingRun

def write (s : RingRun) (buffer : ℕ → UInt8) (size : ℤ) : RingRun :=
  ⟨(writeRing s.ring buffer size).1, s.accepted ++ (range (writeRing s.ring buffer size).2).map buffer, s.taken⟩

def read (s : RingRun) (size : ℤ) : RingRun :=
  ⟨(readRing s.ring size).1, s.accepted, s.taken ++ (readRing s.ring size).2⟩

def step (s : RingRun) : RingCall → RingRun
  | .write buffer size => s.write buffer size
  | .read size => s.read size
  | .enqueue value => s.write (fun _ => value) 1
  | .dequeue => s.read 1
  | .reset => ⟨s.ring.reset, [], []⟩

/-! ## Runs -/

/-- What was taken is what was accepted, in order, and what is left is counted. -/
structure Fifo (s : RingRun) : Prop where
  front_lt : s.ring.front < s.ring.size
  rear_lt : s.ring.rear < s.ring.size
  taken : s.taken <+: s.accepted
  length : (ringLength s.ring).toInt = s.accepted.length - s.taken.length
  full : s.ring.isFull = true ↔ (ringLength s.ring).toInt = s.ring.size - 1
  empty : s.ring.isEmpty = true ↔ (ringLength s.ring).toInt = 0
  accepts : ∀ buffer size, ((writeRing s.ring buffer size).2 : ℤ) =
    min (max size 0) (s.ring.size - 1 - (ringLength s.ring).toInt)
  returns : ∀ size, ((readRing s.ring size).2.length : ℤ) = min (max size 0) (ringLength s.ring).toInt

/-- What the calls keep: the ring holds the accepted bytes that were not taken. -/
def Keeps (n : ℕ) (s : RingRun) : Prop :=
  s.ring.size = n ∧ ∃ left, s.ring.Holds left ∧ s.accepted = s.taken ++ left

variable {n : ℕ} {s : RingRun}

theorem keeps_write (h : s.Keeps n) (buffer : ℕ → UInt8) (size : ℤ) : (s.write buffer size).Keeps n := by
  obtain ⟨hn, left, hholds, haccepted⟩ := h
  obtain ⟨hwrite, hcount⟩ := hholds.write ((range size.toNat).map buffer)
  refine ⟨(RingBuffer.write_size ..).trans hn, _, hwrite, ?_⟩
  change s.accepted ++ (range (s.ring.write _).2).map buffer = s.taken ++ _
  rw [hcount, haccepted, append_assoc, length_map, length_range, ← map_take, take_range, min_comm]

theorem keeps_read (h : s.Keeps n) (size : ℤ) : (s.read size).Keeps n := by
  obtain ⟨hn, left, hholds, haccepted⟩ := h
  obtain ⟨htake, hdrop⟩ := hholds.read size.toNat
  refine ⟨(RingBuffer.read_size ..).trans hn, _, hdrop, ?_⟩
  change s.accepted = s.taken ++ (s.ring.read size.toNat).2 ++ _
  rw [htake, append_assoc, take_append_drop, haccepted]

theorem keeps_step (hn : 0 < n) (h : s.Keeps n) (call : RingCall) : (s.step call).Keeps n := by
  cases call with
  | write buffer size => exact keeps_write h buffer size
  | read size => exact keeps_read h size
  | enqueue value => exact keeps_write h _ 1
  | dequeue => exact keeps_read h 1
  | reset => exact ⟨h.1, [], RingBuffer.holds_reset (h.1 ▸ hn), rfl⟩

theorem keeps_run (hn : 0 < n) (h : s.Keeps n) (calls : List RingCall) : (calls.foldl step s).Keeps n := by
  induction calls generalizing s with
  | nil => exact h
  | cons call calls ih => exact ih (keeps_step hn h call)

theorem ringLength_eq {ring : RingBuffer UInt8} {left : List UInt8} (h : ring.Holds left) (hsize : ring.size ≤ 2 ^ 30) :
    (ringLength ring).toInt = left.length := by
  have hfront := h.front_lt
  have hrear : ring.rear < ring.size := h.rear ▸ Nat.mod_lt _ (by omega)
  rw [ringLength, ← Int32.ofNat_add, ← Int32.ofNat_sub _ _ (by omega), Int32.toInt_mod,
    Int32.toInt_ofNat_of_lt (by omega), Int32.toInt_ofNat_of_lt (by omega), ← h.length_eq]
  rfl

theorem Keeps.fifo (h : s.Keeps n) (hn : n ≤ 2 ^ 30) : s.Fifo := by
  obtain ⟨rfl, left, hholds, haccepted⟩ := h
  have hlen := ringLength_eq hholds hn
  have hlt := hholds.length_lt
  refine ⟨hholds.front_lt, ?_, ⟨left, haccepted.symm⟩, ?_, ?_, ?_, fun buffer size => ?_, fun size => ?_⟩
  · rw [hholds.rear]
    exact Nat.mod_lt _ (by omega)
  · rw [hlen, haccepted, length_append]
    omega
  · rw [hlen, hholds.isFull_iff]
    omega
  · rw [hlen, hholds.isEmpty_iff, ← length_eq_zero_iff]
    omega
  · rw [hlen, writeRing, (hholds.write _).2, length_map, length_range]
    omega
  rw [hlen, readRing, (hholds.read _).1, length_take]
  omega

end RingRun

/-- **A ring of 2 to `2 ^ 30` bytes is a bounded queue after every run of calls.** -/
theorem ring_fifo (ring : RingBuffer UInt8) (hlow : 2 ≤ ring.size) (hhigh : ring.size ≤ 2 ^ 30)
    (calls : List RingCall) : (calls.foldl RingRun.step ⟨ring.reset, [], []⟩).Fifo := by
  have hpos : 0 < ring.size := by omega
  exact (RingRun.keeps_run hpos ⟨rfl, [], RingBuffer.holds_reset hpos, rfl⟩ calls).fifo hhigh

theorem ring_fifo_two : (2 ≤ 2 ∧ 2 ≤ 2 ^ 30) ∧
    ([.enqueue 7, .dequeue].foldl RingRun.step ⟨⟨2, 0, 0, fun _ => 0⟩, [], []⟩).Fifo :=
  ⟨by decide, ring_fifo ⟨2, 0, 0, fun _ => 0⟩ le_rfl (by decide) _⟩

end ZeldaOS
