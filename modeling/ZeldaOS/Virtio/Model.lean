import ZeldaOS.Machine.Bytes
import ZeldaOS.Machine.Ring
import ZeldaOS.Machine.Runs
import ZeldaOS.Machine.Window

/-!
# Virtqueues

A virtqueue of `network/virtio_net.c`, the driver's side and the device's.

* `rawSend` and `rawReceive`: the driver.
-/

namespace ZeldaOS

open Machine Function

/-! ## The queue -/

structure VirtqDesc where
  addr : UInt64
  len : UInt32
  flags : UInt16
  next : UInt16
  deriving DecidableEq

structure VirtUsedElem where
  id : UInt32
  len : UInt32
  deriving DecidableEq

/-- With what its pointers point to; `buffers` is the array `opaque`. -/
structure Virtqueue where
  queueSize : ℕ
  lastUsedIdx : UInt16
  vqDesc : ℕ → VirtqDesc
  availIdx : UInt16
  availRing : ℕ → UInt16
  usedIdx : UInt16
  usedRing : ℕ → VirtUsedElem
  freeDescRing : RingBuffer UInt8
  buffers : ℕ → UInt32

def lowByte (word : ℕ) : UInt8 := .ofNat (word &&& 0xff)
def highByte (word : ℕ) : UInt8 := .ofNat ((word >>> 8) &&& 0xff)

def idBytes (id : ℕ) : List UInt8 := [lowByte id, highByte id]

def ofBytes : List UInt8 → ℕ
  | [] => 0
  | b :: bs => b.toNat + 256 * ofBytes bs

/-- The loop of `virtio_net_device_virt_queue_setup` that fills `free_desc_ring`. -/
def fillFreeRing (ring : RingBuffer UInt8) : List ℕ → Except Fault (RingBuffer UInt8)
  | [] => .ok ring
  | idx :: rest => do
    let (ring, n) := ring.write [lowByte idx]
    ensure (n ≠ 0)
    let (ring, n) := ring.write [highByte idx]
    ensure (n ≠ 0)
    fillFreeRing ring rest

/-- `malloc` leaves any bytes in the buffer of the free ring. -/
def virtQueueSetup (queueSize : ℕ) (mallocated : ℕ → UInt8) : Except Fault Virtqueue := do
  let ring : RingBuffer UInt8 := ⟨queueSize * 2 + 1, 0, 0, mallocated⟩
  let ring ← fillFreeRing ring.reset (List.range queueSize)
  .ok {
    queueSize
    lastUsedIdx := 0
    vqDesc := fun _ => ⟨0, 0, 0, 0⟩
    availIdx := 0
    availRing := fun _ => 0
    usedIdx := 0
    usedRing := fun _ => ⟨0, 0⟩
    freeDescRing := ring
    buffers := fun _ => 0 }

/-- The buffer is placed into a free descriptor, and that into the ring. -/
def Virtqueue.place (q : Virtqueue) (ring : RingBuffer UInt8) (freeDescIndex nrAdded : ℕ) (desc : VirtqDesc)
    (buffer : UInt32) : Virtqueue :=
  { q with
    freeDescRing := ring
    buffers := update q.buffers freeDescIndex buffer
    vqDesc := update q.vqDesc freeDescIndex { desc with next := 0 }
    availRing := update q.availRing ((q.availIdx.toNat + nrAdded) % q.queueSize) (.ofNat freeDescIndex) }

/-! ## The driver -/

def sendLoop (q : Virtqueue) : List (VirtqDesc × UInt32) → (nrAdded : ℕ) →
    Except Fault (Virtqueue × List ℕ)
  | [], _ => .ok (q, [])
  | (desc, buffer) :: rest, nrAdded =>
    if q.freeDescRing.isEmpty then .ok (q, [])
    else do
      let (ring, bytes) := q.freeDescRing.read 2
      ensure (bytes.length = 2)
      let freeDescIndex := ofBytes bytes
      ensure (freeDescIndex < q.queueSize)
      let q := q.place ring freeDescIndex nrAdded desc buffer
      let (q, ids) ← sendLoop q rest (nrAdded + 1)
      .ok (q, freeDescIndex :: ids)

def Virtqueue.publish (q : Virtqueue) (nrAdded : ℕ) : Virtqueue :=
  { q with availIdx := q.availIdx + .ofNat nrAdded }

/-- `virtio_net_device_raw_send`, without the notification of the device. -/
def rawSend (q : Virtqueue) (buffers : List (VirtqDesc × UInt32)) :
    Except Fault (Virtqueue × List ℕ) := do
  let (q, ids) ← sendLoop q buffers 0
  .ok (q.publish ids.length, ids)

/-- What is handed to the caller and to `packet_setup` for one entry. -/
structure Received where
  buffer : UInt32
  desc : VirtqDesc
  usedItem : VirtUsedElem

def receiveLoop (q : Virtqueue) (latestUsedIndex : UInt16) : (nrLeft : ℕ) →
    Except Fault (Virtqueue × UInt16 × List Received)
  | 0 => .ok (q, latestUsedIndex, [])
  | nrLeft + 1 =>
    if latestUsedIndex = q.usedIdx then .ok (q, latestUsedIndex, [])
    else do
      let usedItem := q.usedRing (latestUsedIndex.toNat % q.queueSize)
      let id := usedItem.id.toNat
      ensure (id < q.queueSize)
      let (ring, n) := q.freeDescRing.write (idBytes id)
      ensure (n = 2)
      let (q', latest, entries) ← receiveLoop { q with freeDescRing := ring } (latestUsedIndex + 1) nrLeft
      .ok (q', latest, ⟨q.buffers id, q.vqDesc id, usedItem⟩ :: entries)

def rawReceive (q : Virtqueue) (nrBuffer : ℕ) : Except Fault (Virtqueue × List Received) := do
  let (q, latest, entries) ← receiveLoop q q.lastUsedIdx nrBuffer
  .ok ({ q with lastUsedIdx := latest }, entries)

/-! ## The system -/

/-- The fields of a `struct packet` that the driver reads, and its address. -/
structure Packet where
  address : UInt32
  packetPaddr : UInt32
  payloadOffset : UInt32
  payloadLength : UInt32

/-- What `virtio_net_dev_supply_packet` sends for a packet; `VIRTQ_DESC_F_WRITE` is 2. -/
def Packet.supplied (p : Packet) : VirtqDesc × UInt32 :=
  (⟨(p.packetPaddr + p.payloadOffset).toUInt64, p.payloadLength, 2, 0⟩, p.address)

/-- `virtio_net_dev_supply_packet`; `packets` are those that `get_packet` has left. -/
def supplyPacket (q : Virtqueue) (packets : List Packet) : Except Fault (Virtqueue × List ℕ) := do
  let freeDescriptorNum := q.freeDescRing.length
  ensure (freeDescriptorNum % 2 = 0)
  let packets := packets.take (min 64 (freeDescriptorNum / 2))
  if packets.isEmpty then .ok (q, [])
  else do
    let (q, ids) ← rawSend q (packets.map Packet.supplied)
    ensure (packets.length = ids.length)
    .ok (q, ids)

/-- The descriptor, the pointer handed back, and the number of the last send of the descriptor. -/
structure Receipt where
  id : ℕ
  buffer : UInt32
  send : Option ℕ
  deriving DecidableEq

/-- With the device's index and descriptors, and two records: what was sent, the last one first, and the receipts. -/
structure QueueSystem where
  queue : Virtqueue
  lastAvailIdx : UInt16
  inFlight : List ℕ
  sent : List (ℕ × UInt32)
  received : List Receipt

inductive QueueOp where
  | send (buffers : List (VirtqDesc × UInt32))
  | supply (packets : List Packet)
  | receive (nrBuffer : ℕ)
  | fetch
  | complete (i : ℕ) (len : UInt32)

/-- The number of the last send that used a descriptor; sends are counted from 0. -/
def lastSend : List (ℕ × UInt32) → ℕ → Option ℕ
  | [], _ => none
  | (id, _) :: earlier, d => if id = d then some earlier.length else lastSend earlier d

def sendAt (sent : List (ℕ × UInt32)) (k : ℕ) : Option (ℕ × UInt32) := sent.reverse[k]?

def QueueSystem.start (queue : Virtqueue) : QueueSystem := ⟨queue, 0, [], [], []⟩

def QueueSystem.recordSend (s : QueueSystem) (queue : Virtqueue) (ids : List ℕ) (buffers : List UInt32) :
    QueueSystem :=
  { s with queue, sent := (ids.zip buffers).reverse ++ s.sent }

def QueueSystem.recordReceive (s : QueueSystem) (queue : Virtqueue) (entries : List Received) :
    QueueSystem :=
  { s with
    queue
    received := s.received ++ entries.map fun e =>
      ⟨e.usedItem.id.toNat, e.buffer, lastSend s.sent e.usedItem.id.toNat⟩ }

def QueueSystem.step (s : QueueSystem) : QueueOp → Except Fault QueueSystem
  | .send buffers => do
    let (queue, ids) ← rawSend s.queue buffers
    .ok (s.recordSend queue ids (buffers.map Prod.snd))
  | .supply packets => do
    let (queue, ids) ← supplyPacket s.queue packets
    .ok (s.recordSend queue ids (packets.map Packet.address))
  | .receive nrBuffer => do
    let (queue, entries) ← rawReceive s.queue nrBuffer
    .ok (s.recordReceive queue entries)
  | .fetch =>
    if s.lastAvailIdx = s.queue.availIdx then .ok s
    else .ok { s with
      lastAvailIdx := s.lastAvailIdx + 1
      inFlight := (s.queue.availRing (s.lastAvailIdx.toNat % s.queue.queueSize)).toNat :: s.inFlight }
  | .complete i len =>
    match s.inFlight[i]? with
    | none => .ok s
    | some id => .ok { s with
        inFlight := s.inFlight.eraseIdx i
        queue := { s.queue with
          usedRing := update s.queue.usedRing (s.queue.usedIdx.toNat % s.queue.queueSize) ⟨.ofNat id, len⟩
          usedIdx := s.queue.usedIdx + 1 } }

def decodeIds : List UInt8 → List ℕ
  | low :: high :: rest => ofBytes [low, high] :: decodeIds rest
  | _ => []

/-- The free descriptors, as `free_desc_ring` holds them. -/
def Virtqueue.freeIds (q : Virtqueue) : List ℕ := decodeIds q.freeDescRing.toList

def Virtqueue.usedIds (q : Virtqueue) : List ℕ :=
  (cellsBetween q.usedRing q.queueSize q.lastUsedIdx q.usedIdx).map fun e => e.id.toNat

def QueueSystem.availIds (s : QueueSystem) : List ℕ :=
  (cellsBetween s.queue.availRing s.queue.queueSize s.lastAvailIdx s.queue.availIdx).map UInt16.toNat

end ZeldaOS
