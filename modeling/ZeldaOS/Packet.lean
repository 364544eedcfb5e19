import ZeldaOS.Posix
import ZeldaOS.Virtio.Model

/-!
# The room of a packet

`network/net_packet.c`: the payload of a packet grows and shrinks on both sides, in unsigned arithmetic.

* `packet_room_iff`: the room is kept exactly by tame calls.
-/

namespace ZeldaOS

/-! ## The calls -/

/-- `PACKET_HEADER_SIZE`, which is also `MINIMAL_HEADER_ROOM_SIZE`. -/
def packetHeaderSize : UInt32 := 28

def netPacketTotalSize : UInt32 := 2048

def packetReset (virt2phy : UInt32 → UInt32) (p : Packet) : Packet :=
  { p with packetPaddr := virt2phy p.address, payloadOffset := packetHeaderSize + 0x80, payloadLength := 0 }

section
variable (p : Packet) (nrRoom : Int32)

def packetExtendLeft : Packet × ℤ :=
  if p.payloadOffset - nrRoom.toUInt32 < packetHeaderSize then (p, -errInvalidArg)
  else ({ p with
    payloadOffset := p.payloadOffset - nrRoom.toUInt32
    payloadLength := p.payloadLength + nrRoom.toUInt32 }, 0)

def packetExtendRight : Packet × ℤ :=
  if p.payloadOffset + (p.payloadLength + nrRoom.toUInt32) > netPacketTotalSize then (p, -errInvalidArg)
  else ({ p with payloadLength := p.payloadLength + nrRoom.toUInt32 }, 0)

def packetShrinkLeft : Packet × ℤ :=
  if nrRoom.toUInt32 > p.payloadLength then (p, -errInvalidArg)
  else ({ p with
    payloadOffset := p.payloadOffset + nrRoom.toUInt32
    payloadLength := p.payloadLength - nrRoom.toUInt32 }, 0)

def packetShrinkRight : Packet × ℤ :=
  if nrRoom.toUInt32 > p.payloadLength then (p, -errInvalidArg)
  else ({ p with payloadLength := p.payloadLength - nrRoom.toUInt32 }, 0)

end

inductive PacketOp where
  | extendLeft (nrRoom : Int32)
  | extendRight (nrRoom : Int32)
  | shrinkLeft (nrRoom : Int32)
  | shrinkRight (nrRoom : Int32)

def packetCall (p : Packet) : PacketOp → Packet × ℤ
  | .extendLeft nrRoom => packetExtendLeft p nrRoom
  | .extendRight nrRoom => packetExtendRight p nrRoom
  | .shrinkLeft nrRoom => packetShrinkLeft p nrRoom
  | .shrinkRight nrRoom => packetShrinkRight p nrRoom

def packetRun (p : Packet) (ops : List PacketOp) : Packet := ops.foldl (fun p op => (packetCall p op).1) p

/-! ## The room -/

def Packet.Fits (p : Packet) : Prop :=
  packetHeaderSize.toNat ≤ p.payloadOffset.toNat ∧
    p.payloadOffset.toNat + p.payloadLength.toNat ≤ netPacketTotalSize.toNat

instance Packet.decidableFits (p : Packet) : Decidable p.Fits := inferInstanceAs (Decidable (_ ∧ _))

def Packet.Restored (p : Packet) (nrRoom : Int32) : Prop :=
  ((packetExtendLeft p nrRoom).2 = 0 → packetShrinkLeft (packetExtendLeft p nrRoom).1 nrRoom = (p, 0)) ∧
    ((packetExtendRight p nrRoom).2 = 0 → packetShrinkRight (packetExtendRight p nrRoom).1 nrRoom = (p, 0))

structure RoomKept (p : Packet) (ops : List PacketOp) : Prop where
  fits : ∀ pre, pre <+: ops → (packetRun p pre).Fits
  unchanged : ∀ pre op, pre ++ [op] <+: ops → (packetCall (packetRun p pre) op).2 ≠ 0 →
    (packetCall (packetRun p pre) op).1 = packetRun p pre
  restored : ∀ pre, pre <+: ops → ∀ nrRoom : Int32, 0 ≤ nrRoom.toInt → (packetRun p pre).Restored nrRoom

/-- An extension to the left by no more than the room, and a negative one by no more than the payload, unless the
unsigned end of the payload is found too large. -/
def Packet.Tame (p : Packet) : PacketOp → Prop
  | .extendLeft nrRoom => -(p.payloadLength.toNat : ℤ) ≤ nrRoom.toInt ∧ nrRoom.toInt ≤ p.payloadOffset.toNat
  | .extendRight nrRoom => -(p.payloadLength.toNat : ℤ) ≤ nrRoom.toInt ∨
      nrRoom.toInt < -(p.payloadOffset.toNat + p.payloadLength.toNat : ℤ)
  | _ => True

theorem toNat_toUInt32 (r : Int32) : r.toUInt32.toNat < 2 ^ 32 ∧
      (r.toInt = r.toUInt32.toNat ∧ r.toUInt32.toNat < 2 ^ 31 ∨
        r.toInt = r.toUInt32.toNat - 2 ^ 32 ∧ 2 ^ 31 ≤ r.toUInt32.toNat) := by
  have hlt := r.toUInt32.toNat_lt
  have hint : r.toInt = if 2 * r.toUInt32.toNat < 2 ^ 32 then (r.toUInt32.toNat : ℤ)
      else (r.toUInt32.toNat : ℤ) - (2 ^ 32 : ℕ) := BitVec.toInt_eq_toNat_cond _
  refine ⟨hlt, ?_⟩
  split_ifs at hint with h
  · exact .inl ⟨hint, by omega⟩
  · exact .inr ⟨by rw [hint]; rfl, by omega⟩

section
variable {p : Packet}

theorem header_toNat : packetHeaderSize.toNat = 28 := rfl

theorem total_toNat : netPacketTotalSize.toNat = 2048 := rfl

/-- **One call keeps the payload inside if and only if it is tame.** -/
theorem Packet.Fits.call_iff (h : p.Fits) (op : PacketOp) : (packetCall p op).1.Fits ↔ p.Tame op := by
  have hfits := h
  simp only [Packet.Fits, header_toNat, total_toNat] at h
  cases op with
  | extendLeft r =>
    have hr := toNat_toUInt32 r
    rw [packetCall, packetExtendLeft, Packet.Tame]
    split_ifs with hlow
    · rw [UInt32.lt_iff_toNat_lt, UInt32.toNat_sub, header_toNat] at hlow
      exact iff_of_true hfits (by omega)
    rw [UInt32.lt_iff_toNat_lt, UInt32.toNat_sub, header_toNat] at hlow
    simp only [Packet.Fits, header_toNat, total_toNat, UInt32.toNat_sub, UInt32.toNat_add]
    omega
  | extendRight r =>
    have hr := toNat_toUInt32 r
    rw [packetCall, packetExtendRight, Packet.Tame]
    split_ifs with hhigh
    · rw [gt_iff_lt, UInt32.lt_iff_toNat_lt, UInt32.toNat_add, UInt32.toNat_add, total_toNat] at hhigh
      exact iff_of_true hfits (by omega)
    rw [gt_iff_lt, UInt32.lt_iff_toNat_lt, UInt32.toNat_add, UInt32.toNat_add, total_toNat] at hhigh
    simp only [Packet.Fits, header_toNat, total_toNat, UInt32.toNat_add]
    omega
  | shrinkLeft r =>
    rw [packetCall, packetShrinkLeft]
    refine iff_of_true ?_ trivial
    split_ifs with hmore
    · exact hfits
    rw [gt_iff_lt, UInt32.lt_iff_toNat_lt] at hmore
    simp only [Packet.Fits, header_toNat, total_toNat, UInt32.toNat_sub, UInt32.toNat_add]
    omega
  | shrinkRight r =>
    rw [packetCall, packetShrinkRight]
    refine iff_of_true ?_ trivial
    split_ifs with hmore
    · exact hfits
    rw [gt_iff_lt, UInt32.lt_iff_toNat_lt] at hmore
    simp only [Packet.Fits, header_toNat, total_toNat, UInt32.toNat_sub]
    omega

theorem unchanged_of_ne {c : Prop} [Decidable c] {q : Packet}
    (h : (if c then (p, -errInvalidArg) else (q, 0)).2 ≠ 0) : (if c then (p, -errInvalidArg) else (q, 0)).1 = p := by
  split_ifs at h ⊢
  · rfl
  · exact absurd rfl h

theorem packetCall_unchanged (p : Packet) (op : PacketOp) (h : (packetCall p op).2 ≠ 0) : (packetCall p op).1 = p := by
  cases op <;> exact unchanged_of_ne h

theorem Packet.Fits.restored (h : p.Fits) {r : Int32} (hr : 0 ≤ r.toInt) : p.Restored r := by
  simp only [Packet.Fits, header_toNat, total_toNat] at h
  have hroom := toNat_toUInt32 r
  have hshrink : ¬r.toUInt32 > p.payloadLength + r.toUInt32 := by
    rw [gt_iff_lt, UInt32.lt_iff_toNat_lt, UInt32.toNat_add]
    omega
  refine ⟨fun hok => ?_, fun hok => ?_⟩
  · rw [packetExtendLeft] at hok ⊢
    split_ifs at hok ⊢
    · exact absurd hok (show -errInvalidArg ≠ 0 by decide)
    rw [packetShrinkLeft, if_neg hshrink]
    simp only [UInt32.sub_add_cancel, UInt32.add_sub_cancel]
  rw [packetExtendRight] at hok ⊢
  split_ifs at hok ⊢
  · exact absurd hok (show -errInvalidArg ≠ 0 by decide)
  rw [packetShrinkRight, if_neg hshrink]
  simp only [UInt32.add_sub_cancel]

end

theorem packetReset_fits (virt2phy : UInt32 → UInt32) (p : Packet) : (packetReset virt2phy p).Fits := by
  change packetHeaderSize.toNat ≤ (packetHeaderSize + 0x80).toNat ∧
    (packetHeaderSize + 0x80).toNat + (0 : UInt32).toNat ≤ netPacketTotalSize.toNat
  decide

theorem packetRun_concat (p : Packet) (pre : List PacketOp) (op : PacketOp) :
    packetRun p (pre ++ [op]) = (packetCall (packetRun p pre) op).1 :=
  List.foldl_concat ..

/-- **The room of a packet is kept if and only if every call is tame.** -/
theorem packet_room_iff (virt2phy : UInt32 → UInt32) (p : Packet) (ops : List PacketOp) :
    RoomKept (packetReset virt2phy p) ops ↔
      ∀ pre op, pre ++ [op] <+: ops → (packetRun (packetReset virt2phy p) pre).Tame op := by
  have hreset := packetReset_fits virt2phy p
  set q := packetReset virt2phy p
  refine ⟨fun h pre op hpre => ?_, fun h => ?_⟩
  · rw [← (h.fits pre ((List.prefix_append pre [op]).trans hpre)).call_iff, ← packetRun_concat]
    exact h.fits _ hpre
  have hfits : ∀ pre, pre <+: ops → (packetRun q pre).Fits := by
    intro pre
    induction pre using List.reverseRecOn with
    | nil => exact fun _ => hreset
    | append_singleton pre op ih =>
      intro hpre
      rw [packetRun_concat, (ih ((List.prefix_append pre [op]).trans hpre)).call_iff]
      exact h pre op hpre
  exact ⟨hfits, fun pre op _ => packetCall_unchanged _ op, fun pre hpre _ => (hfits pre hpre).restored⟩

/-- An extension to the left by 157 bytes moves the payload to the end of the address space. -/
theorem extend_left_wraps : ¬RoomKept (packetReset id ⟨0, 0, 0, 0⟩) [.extendLeft 157] := by
  intro h
  exact absurd (h.fits _ List.prefix_rfl) (by decide)

end ZeldaOS
